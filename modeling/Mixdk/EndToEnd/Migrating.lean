/-
# EndToEnd.Migrating -- migrations among the workers

`Pool` adds the migrate threads to the workers: a migration begins when an nvm_worker
has found its segment full and got `migrate_mutex`, each of its threads takes its
actions one by one, and at its end the nvm_worker goes on with its write.  Meanwhile
the scheduler and all the other workers run.

A migration of segment 0 whose ssd_worker has nothing to do is as good as one step
(`Ahead.step`): the workers do in the pool what they do in the `System` in which the
migration has not begun yet, and at its end that system takes `System.migrateStep`.
Where that step leads, things settle as after a synchronous migration
(`System.Ready.migrate`).
-/
import Mixdk.EndToEnd.Elsewhere

namespace Mixdk

open Transition Lanes

set_option autoImplicit false

/-! ## A migration in one step -/

section

variable {P : Nat} {idx : SegIdx} {m m' : Machine} {f : Machine → Machine}
  {sched : List (Fin MIGRATE_THREAD_NUM)}

theorem Elsewhere.mixMigrateSegment (apart : Elsewhere P idx f) (ok : Indexed P (m.segment idx))
    (keys : ∀ kv ∈ (m.segment idx).hash.entries, segmentOf kv.1 = idx)
    (stages : StagesApart m idx sched) (ran : Mixdk.mixMigrateSegment m idx sched = some m') :
    Mixdk.mixMigrateSegment (f m) idx sched = some (f m') ∧ StagesApart (f m) idx sched := by
  obtain ⟨s, drain, ends, rfl⟩ := mixMigrateSegment_eq_some.1 ran
  obtain ⟨s', run⟩ := stages
  have same := run.exec.symm.trans drain
  cases same
  have moved := apart.migration ok keys run
  refine ⟨mixMigrateSegment_eq_some.2 ⟨_, moved.exec, ends, ?_⟩, _, moved⟩
  change (f s.m).setSegment idx { (f s.m).segment idx with
    bitmap := mixBitmapClear ((f s.m).segment idx).bitmap } = _
  rw [apart.segment, ← apart.setSegment]
  rfl

namespace System

variable {s s' : System}

/-- The ssd_worker of the segment has nothing to do, and its nvm_worker is between tasks. -/
structure Waits (s : System) (idx : SegIdx) : Prop where
  actions : (s.lane idx).actions = []
  ssdQueue : (s.lane idx).ssdQueue = []
  ssd : (s.lane idx).ssd = .poll

theorem Waits.left (waits : s.Waits idx) : s.left idx = [] := by
  simp [System.left, Lane.works, waits.actions, waits.ssdQueue, waits.ssd, SsdPc.works,
    Mixdk.works]

/-- What has been begun in the other segments leaves the migration alone. -/
theorem Waits.elsewhere (waits : s.Waits idx) (first : idx.val = 0)
    (kept : Kept P s.left s.waiting) :
    Elsewhere P idx fun m => settle Work.act allSegments m s.left := by
  apply Elsewhere.runAll
  intro x member
  obtain ⟨-, there⟩ := mem_inLanes.1 member
  have other : x.1 ≠ idx := by
    intro same
    rw [same, waits.left] at there
    cases there
  exact elsewhere_act first other (kept.inSegment x.1 x.2 there)

/-- **After the migration things settle as after a synchronous one.** -/
theorem Ready.migrate (ready : s.Ready P) (some_block : 0 < P) (first : idx.val = 0)
    (waits : s.Waits idx)
    (keys : ∀ kv ∈ (s.m.segment idx).hash.entries, segmentOf kv.1 = idx)
    (stages : StagesApart s.m idx sched) (stepped : s.migrateStep idx sched = some s') :
    s'.Ready P ∧ StagesApart s.settled idx sched ∧ ∃ task later, s.waiting idx = task :: later ∧
      s'.waiting = Function.update s.waiting idx later ∧
      s.settled.syncMigrate idx task sched = some s'.settled := by
  simp only [migrateStep, waits.actions] at stepped
  split at stepped
  · rename_i task rest _ queue
    have member : task ∈ s.waiting idx := by
      rw [waiting, queue]
      exact List.mem_append_left _ List.mem_cons_self
    obtain ⟨inRange, stripe⟩ := ready.kept.tasks idx task member
    split at stepped
    · rename_i full
      obtain ⟨m₁, migration, begun⟩ := Option.bind_eq_some_iff.1 stepped
      have all := ready.running.all
      have size := ready.running.perBlockNum
      have ok : Indexed P (s.m.segment idx) := size ▸ all idx
      have done := migrated (all idx).drainable migration
      have all₁ := all.migrated done
      have outcome := redirectWriteAfterMigration_spec done (all idx) (size ▸ some_block) inRange
      obtain ⟨settledMigration, settledStages⟩ :=
        (waits.elsewhere first ready.kept).mixMigrateSegment ok keys stages migration
      cases counted : (redirectWriteAfterMigration m₁.md task idx).counted with
      | full | spins =>
          rw [counted] at begun
          cases begun
      | done md actions ret =>
          rw [counted] at begun
          have prepared : Prepared m₁.md.perBlockNum idx task actions := by
            apply counted_prepared counted
            intro acts written
            rw [written] at outcome
            exact outcome.done_prepared all₁ inRange.1
          obtain ⟨all', size'⟩ : AllIndexed md ∧ md.perBlockNum = m₁.md.perBlockNum := by
            generalize redirectWriteAfterMigration m₁.md task idx = result at outcome counted
            cases result with
            | full | spins => cases counted
            | done md'' acts ret' =>
                injection counted with same
                exact same ▸ outcome.allIndexed all₁ inRange
          rw [done.perBlockNum, size] at prepared size'
          obtain ⟨ready', later, next, waiting', sync⟩ :=
            begin_settled (s := { s with m := m₁ }) ready.kept queue waits.actions prepared all'
              size' begun
          refine ⟨ready', settledStages, task, later, next, waiting', ?_⟩
          rw [Machine.syncMigrate, settled_md, full]
          refine Option.bind_eq_some_iff.2 ⟨_, settledMigration, ?_⟩
          have md₁ : (settle Work.act allSegments m₁ s.left).md = m₁.md := runAll_md _ _
          rw [md₁, counted]
          exact sync
    · cases stepped
  · cases stepped

end System

end

/-! ## The pool -/

/-- The workers, and the migration that holds `migrate_mutex`: its segment and where its threads
are. -/
structure Pool where
  sys : System
  migration : Option (SegIdx × (Fin MIGRATE_THREAD_NUM → MigratePc))

inductive Move
  | worker (thread : Thread)
  /-- The nvm_worker has found its segment full and gets `migrate_mutex`. -/
  | beginMigration (idx : SegIdx)
  | migrate (t : Fin MIGRATE_THREAD_NUM)
  /-- The nvm_worker sees all threads counted, and goes on with its write. -/
  | endMigration
deriving DecidableEq

namespace Pool

/-- The worker is inside `mix_migrate_segment`. -/
def Blocked (s : Pool) (thread : Thread) : Prop :=
  ∃ x ∈ s.migration, thread = .nvm x.1

instance (s : Pool) (thread : Thread) : Decidable (s.Blocked thread) := by
  unfold Blocked
  infer_instance

/-- The nvm_worker's next task is a write that finds the segment full. -/
def Full (s : System) (idx : SegIdx) : Bool :=
  match (s.lane idx).actions, (s.lane idx).bufferQueue with
  | [], task :: _ =>
      match nvmWorkerSsdTask s.m.md task idx with
      | .full => true
      | _ => false
  | _, _ => false

def beginMigration (s : Pool) (idx : SegIdx) : Option Pool :=
  if s.migration = none ∧ Full s.sys idx = true then
    some { s with migration := some (idx, fun t => .pop t) }
  else none

def migrate (s : Pool) (t : Fin MIGRATE_THREAD_NUM) : Option Pool :=
  s.migration.bind fun (idx, pc) =>
    (migrateStep idx { m := s.sys.m, pc := pc } t).map fun next =>
      { sys := { s.sys with m := next.m }, migration := some (idx, next.pc) }

def endMigration (s : Pool) : Option Pool :=
  s.migration.bind fun (idx, pc) =>
    if ∀ t, pc t = .done then
      match (s.sys.lane idx).bufferQueue with
      | [] => none
      | task :: rest =>
          let m := migrationEnd s.sys.m idx
          ({ s.sys with m := m }.begin idx rest
            (redirectWriteAfterMigration m.md task idx).counted).map fun sys =>
              { sys := sys, migration := none }
    else none

def step (capacity : Nat) (s : Pool) : Move → Option Pool
  | .worker thread =>
      if s.Blocked thread then none
      else (s.sys.step capacity thread).map fun sys => { s with sys := sys }
  | .beginMigration idx => s.beginMigration idx
  | .migrate t => s.migrate t
  | .endMigration => s.endMigration

end Pool

/-! ## The migration that has not begun -/

/-- `m` is the machine of `v` in the middle of a migration of segment 0. -/
structure Underway (v : System) (idx : SegIdx) (pc : Fin MIGRATE_THREAD_NUM → MigratePc)
    (m : Machine) : Prop where
  first : idx.val = 0
  waits : v.Waits idx
  full : Pool.Full v idx = true
  run : ∃ sched, Run (migrateStep idx) Apart (migrationStart v.m MIGRATE_THREAD_NUM) sched
    { m := m, pc := pc }

/-- `v` is the pool's system, as it is when the migration that is under way has not begun. -/
inductive Ahead : Pool → System → Prop
  | idle (v : System) : Ahead { sys := v, migration := none } v
  | migrating {v : System} {idx : SegIdx} {pc : Fin MIGRATE_THREAD_NUM → MigratePc} {m : Machine}
      (underway : Underway v idx pc m) :
      Ahead { sys := { v with m := m }, migration := some (idx, pc) } v

/-- When a migration does no harm: it is of segment 0, the ssd_worker of the segment has nothing
to do, and no thread stages over another. -/
def MigrationSafe (s : Pool) : Move → Prop
  | .worker _ | .endMigration => True
  | .beginMigration idx =>
      idx.val = 0 ∧ (s.sys.lane idx).ssdQueue = [] ∧ (s.sys.lane idx).ssd = .poll
  | .migrate t => ∀ x ∈ s.migration, Apart { m := s.sys.m, pc := x.2 } t

/-- What a move of the pool is for the system in which the migration has not begun. -/
inductive Follows (capacity : Nat) (v : System) : Move → System → Prop
  | worker {v' : System} {thread : Thread} (stepped : v.step capacity thread = some v') :
      Follows capacity v (.worker thread) v'
  | stays {move : Move} : Follows capacity v move v
  | migrates {v' : System} {idx : SegIdx} {sched : List (Fin MIGRATE_THREAD_NUM)}
      (first : idx.val = 0) (waits : v.Waits idx) (stages : StagesApart v.m idx sched)
      (stepped : v.migrateStep idx sched = some v') : Follows capacity v .endMigration v'

section

variable {P capacity : Nat} {idx : SegIdx} {s s' : Pool} {v : System}

theorem full_iff {v : System} : Pool.Full v idx = true ↔ (v.lane idx).actions = [] ∧
    ∃ task rest, (v.lane idx).bufferQueue = task :: rest ∧
      nvmWorkerSsdTask v.m.md task idx = .full := by
  unfold Pool.Full
  cases (v.lane idx).actions with
  | cons a acts => simp
  | nil =>
      cases (v.lane idx).bufferQueue with
      | nil => simp
      | cons task rest => cases result : nvmWorkerSsdTask v.m.md task idx <;> simp [result]

/-- Where other workers' operations lead, the segment is as full as before. -/
theorem Full.kept {v v' : System} {f : Machine → Machine} (apart : Elsewhere P idx f)
    (full : Pool.Full v idx = true) (m : v'.m = f v.m) (actions : (v'.lane idx).actions = [])
    {more : List IoTask}
    (queue : (v'.lane idx).bufferQueue = (v.lane idx).bufferQueue ++ more) :
    Pool.Full v' idx = true := by
  obtain ⟨-, task, rest, head, full⟩ := full_iff.1 full
  refine full_iff.2 ⟨actions, task, rest ++ more, by rw [queue, head, List.cons_append], ?_⟩
  have seg : (f v.m).md.segments idx = v.m.md.segments idx := apart.segment v.m
  have onto : nvmWorkerSsdTask (f v.m).md task idx =
      (nvmWorkerSsdTask v.m.md task idx).onto (f v.m).md idx :=
    nvmWorkerSsdTask_onto (apart.perBlockNum v.m) seg task
  rw [m, onto, full]
  rfl

/-- The step that a machine `m` in migration takes to `r` is one of the machine before. -/
def AsBefore (P capacity : Nat) (idx : SegIdx) (v : System) (m : Machine) (thread : Thread)
    (r : System) : Prop :=
  ∃ f v' more, Elsewhere P idx f ∧ v.step capacity thread = some v' ∧ v'.m = f v.m ∧
    r = { v' with m := f m } ∧ v'.Waits idx ∧
    (v'.lane idx).bufferQueue = (v.lane idx).bufferQueue ++ more

/-- A worker of another segment leaves the lane of this one alone. -/
theorem Waits.untouched (waits : v.Waits idx) {j : SegIdx} (other : j ≠ idx) (lane : Lane)
    (n : Machine) (todo : List (SegIdx × IoTask)) :
    System.Waits ⟨n, todo, Function.update v.lane j lane⟩ idx ∧
      (Function.update v.lane j lane idx).bufferQueue = (v.lane idx).bufferQueue ++ [] := by
  have at_ : Function.update v.lane j lane idx = v.lane idx := Function.update_of_ne other.symm ..
  refine ⟨⟨?_, ?_, ?_⟩, ?_⟩
  · exact (congrArg Lane.actions at_).trans waits.actions
  · exact (congrArg Lane.ssdQueue at_).trans waits.ssdQueue
  · exact (congrArg Lane.ssd at_).trans waits.ssd
  · rw [at_, List.append_nil]

theorem scheduler_elsewhere {m : Machine} (waits : v.Waits idx) {r : System}
    (stepped : { v with m := m }.step capacity .scheduler = some r) :
    AsBefore P capacity idx v m .scheduler r := by
  unfold AsBefore
  simp only [System.step, System.schedulerStep] at stepped ⊢
  split at stepped
  · cases stepped
  · rename_i j task rest posts
    split at stepped
    · rename_i room
      obtain rfl := Option.some.inj stepped
      rw [if_pos room]
      by_cases mine : j = idx
      · subst mine
        have at_ := Function.update_self j
          { v.lane j with bufferQueue := (v.lane j).bufferQueue ++ [task] } v.lane
        refine ⟨fun m => m, _, [task], .id, rfl, rfl, rfl, ⟨?_, ?_, ?_⟩, ?_⟩
        · exact (congrArg Lane.actions at_).trans waits.actions
        · exact (congrArg Lane.ssdQueue at_).trans waits.ssdQueue
        · exact (congrArg Lane.ssd at_).trans waits.ssd
        · exact congrArg Lane.bufferQueue at_
      · obtain ⟨waits', queue⟩ := Waits.untouched waits mine _ v.m rest
        exact ⟨fun m => m, _, [], .id, rfl, rfl, rfl, waits', queue⟩
    · cases stepped

theorem nvm_elsewhere {m : Machine} (ready : v.Ready P) (first : idx.val = 0)
    (waits : v.Waits idx) (size : m.md.perBlockNum = v.m.md.perBlockNum)
    (same : ∀ j ≠ idx, m.segment j = v.m.segment j) {j : SegIdx} (other : j ≠ idx) {r : System}
    (stepped : { v with m := m }.step capacity (.nvm j) = some r) :
    AsBefore P capacity idx v m (.nvm j) r := by
  unfold AsBefore
  simp only [System.step, System.nvmStep] at stepped ⊢
  split at stepped
  · split at stepped
    · cases stepped
    · -- the worker begins a task, of which it finds the same index
      rename_i task rest queue
      have onto : nvmWorkerSsdTask m.md task j = (nvmWorkerSsdTask v.m.md task j).onto m.md j :=
        nvmWorkerSsdTask_onto size (same j other) task
      cases result : nvmWorkerSsdTask v.m.md task j with
      | full | spins =>
          rw [result] at onto
          rw [onto] at stepped
          cases stepped
      | done md actions ret =>
          rw [result] at onto
          rw [onto] at stepped
          obtain rfl := Option.some.inj stepped
          have here : md = v.m.md.setSegment j (md.segments j) := nvmWorkerSsdTask_done result
          obtain ⟨waits', lanes⟩ := Waits.untouched waits other _ { v.m with md := md } v.todo
          refine ⟨fun m => m.setSegment j (md.segments j), _, [],
            .setSegment_other other _, rfl, ?_, rfl, waits', lanes⟩
          change { v.m with md := md } = v.m.setSegment j (md.segments j)
          rw [Machine.setSegment, ← here]
  · rename_i task rest acts
    split at stepped
    · rename_i room
      obtain rfl := Option.some.inj stepped
      rw [if_pos room]
      obtain ⟨waits', queue⟩ := Waits.untouched waits other _ v.m v.todo
      exact ⟨fun m => m, _, [], .id, rfl, rfl, rfl, waits', queue⟩
    · cases stepped
  · rename_i a rest notPost acts
    obtain rfl := Option.some.inj stepped
    have inside : Work.InSegment P j (.action a) := by
      apply ready.kept.inSegment j
      have single : a.works = [.action a] := by
        cases a with
        | postTaskToSsd task => exact absurd rfl (notPost task)
        | readFromBuffer | writeToBuffer | bufferClear | addRet
        | nvmWriteBlockCompleted => rfl
      simp [System.left, Lane.works, acts, Mixdk.works, single]
    obtain ⟨waits', queue⟩ := Waits.untouched waits other _ (v.m.perform a) v.todo
    exact ⟨_, _, [], elsewhere_act first other inside, rfl, rfl, rfl, waits', queue⟩

theorem ssd_elsewhere {m : Machine} (ready : v.Ready P) (first : idx.val = 0)
    (waits : v.Waits idx) {j : SegIdx} {r : System}
    (stepped : { v with m := m }.step capacity (.ssd j) = some r) :
    AsBefore P capacity idx v m (.ssd j) r := by
  -- the ssd_worker of the segment in migration has nothing to do
  have other : (v.lane j).ssd ≠ .poll ∨ (v.lane j).ssdQueue ≠ [] → j ≠ idx := by
    rintro busy rfl
    exact busy.elim (fun ne => ne waits.ssd) fun ne => ne waits.ssdQueue
  unfold AsBefore
  simp only [System.step, System.ssdStep] at stepped ⊢
  split at stepped
  · split at stepped
    · cases stepped
    · rename_i polls task rest queue
      obtain rfl := Option.some.inj stepped
      have away := other (.inr (by rw [queue]; exact List.cons_ne_nil _ _))
      obtain ⟨waits', lanes⟩ := Waits.untouched waits away _ v.m v.todo
      exact ⟨fun m => m, _, [], .id, rfl, rfl, rfl, waits', lanes⟩
  · rename_i task executes
    obtain rfl := Option.some.inj stepped
    have busy : (v.lane j).ssd ≠ .poll := by
      intro polls
      cases executes.symm.trans polls
    have away := other (.inl busy)
    have inside : Work.InSegment P j (.stage task) := by
      apply ready.kept.inSegment j
      simp [System.left, Lane.works, executes, SsdPc.works]
    obtain ⟨waits', lanes⟩ := Waits.untouched waits away _ (v.m.ssdTaskStage j task) v.todo
    exact ⟨_, _, [], elsewhere_act first away inside, rfl, rfl, rfl, waits', lanes⟩
  · rename_i task staged
    obtain rfl := Option.some.inj stepped
    have busy : (v.lane j).ssd ≠ .poll := by
      intro polls
      cases staged.symm.trans polls
    have away := other (.inl busy)
    have inside : Work.InSegment P j (.complete task) := by
      apply ready.kept.inSegment j
      simp [System.left, Lane.works, staged, SsdPc.works]
    obtain ⟨waits', lanes⟩ := Waits.untouched waits away _ (v.m.ssdTaskComplete j task) v.todo
    exact ⟨_, _, [], elsewhere_act first away inside, rfl, rfl, rfl, waits', lanes⟩

/-- The other workers do on a machine in migration what they do on the machine before. -/
theorem step_elsewhere {m : Machine} (ready : v.Ready P) (first : idx.val = 0)
    (waits : v.Waits idx) (size : m.md.perBlockNum = v.m.md.perBlockNum)
    (same : ∀ j ≠ idx, m.segment j = v.m.segment j) {thread : Thread} (free : thread ≠ .nvm idx)
    {r : System} (stepped : { v with m := m }.step capacity thread = some r) :
    AsBefore P capacity idx v m thread r := by
  cases thread with
  | scheduler => exact scheduler_elsewhere waits stepped
  | nvm j =>
      have other : j ≠ idx := fun eq => free (congrArg Thread.nvm eq)
      exact nvm_elsewhere ready first waits size same other stepped
  | ssd j => exact ssd_elsewhere ready first waits stepped

theorem Underway.same {pc : Fin MIGRATE_THREAD_NUM → MigratePc} {m : Machine}
    (all : AllIndexed v.m.md) (underway : Underway v idx pc m) : SameOutside idx v.m m := by
  obtain ⟨sched, run⟩ := underway.run
  have ok := (all idx).drainable
  obtain ⟨fin, drained⟩ := drained_of_exec ok.lens ok.proper run.exec
  exact drained.same

/-- **Every move of the pool is a step of the system in which the migration has not begun, or
none.** -/
theorem Ahead.step (ready : v.Ready P)
    (keys : ∀ idx, ∀ kv ∈ (v.m.segment idx).hash.entries, segmentOf kv.1 = idx)
    (ahead : Ahead s v) {move : Move} (safe : MigrationSafe s move)
    (stepped : s.step capacity move = some s') :
    ∃ v', Ahead s' v' ∧ Follows capacity v move v' := by
  have all := ready.running.all
  cases move with
  | worker thread =>
      simp only [Pool.step] at stepped
      split at stepped
      · cases stepped
      · rename_i free
        obtain ⟨sys, worked, rfl⟩ := Option.map_eq_some_iff.1 stepped
        cases ahead with
        | idle => exact ⟨sys, .idle sys, .worker worked⟩
        | @migrating _ idx pc m underway =>
            have notNvm : thread ≠ .nvm idx := fun eq => free ⟨(idx, pc), rfl, eq⟩
            have same := underway.same all
            obtain ⟨f, v', more, apart, early, here, rfl, waits, queue⟩ :=
              step_elsewhere ready underway.first underway.waits same.perBlockNum same.segments
                notNvm worked
            refine ⟨v', .migrating ⟨underway.first, waits, ?_, ?_⟩, .worker early⟩
            · exact Full.kept apart underway.full here waits.actions queue
            · obtain ⟨sched, run⟩ := underway.run
              rw [here]
              have ok : Indexed P (v.m.segment idx) := ready.running.perBlockNum ▸ all idx
              exact ⟨sched, apart.migration ok (keys idx) run⟩
  | beginMigration idx =>
      simp only [Pool.step, Pool.beginMigration] at stepped
      split at stepped
      · rename_i free
        obtain rfl := Option.some.inj stepped
        cases ahead with
        | idle =>
            obtain ⟨first, queue, polls⟩ := safe
            have actions := (full_iff.1 free.2).1
            exact ⟨v, .migrating ⟨first, ⟨actions, queue, polls⟩, free.2, [], .nil _⟩, .stays⟩
        | migrating underway => cases free.1
      · cases stepped
  | migrate t =>
      obtain ⟨⟨idx, pc⟩, held, moved⟩ := Option.bind_eq_some_iff.1 stepped
      cases ahead with
      | idle => cases held
      | migrating underway =>
          cases held
          obtain ⟨next, taken, rfl⟩ := Option.map_eq_some_iff.1 moved
          obtain ⟨sched, run⟩ := underway.run
          have met := safe _ rfl
          exact ⟨v, .migrating ⟨underway.first, underway.waits, underway.full, sched ++ [t],
            run.append (.cons met taken (.nil _))⟩, .stays⟩
  | endMigration =>
      obtain ⟨⟨idx, pc⟩, held, ended⟩ := Option.bind_eq_some_iff.1 stepped
      cases ahead with
      | idle => cases held
      | @migrating _ _ _ m underway =>
          cases held
          simp only at ended
          split at ended
          · rename_i ends
            obtain ⟨actions, task, rest, queue, full⟩ := full_iff.1 underway.full
            rw [queue] at ended
            obtain ⟨v', begun, rfl⟩ := Option.map_eq_some_iff.1 ended
            obtain ⟨sched, run⟩ := underway.run
            have whole : mixMigrateSegment v.m idx sched = some (migrationEnd m idx) :=
              mixMigrateSegment_eq_some.2 ⟨_, run.exec, ends, rfl⟩
            have early : v.migrateStep idx sched = some v' := by
              simp only [System.migrateStep, actions, queue, full, whole, Option.bind_some]
              exact begun
            exact ⟨v', .idle v', .migrates underway.first underway.waits ⟨_, run⟩ early⟩
          · cases ended

end

end Mixdk
