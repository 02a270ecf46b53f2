/-
# Handshake.Rounds -- migration rounds and the flags of the migrate threads

A round is opened by `mix_segment_migration_begin`, which names the segment, zeroes
its count of finished threads and raises the flag of every migrate thread, and closed
by `mix_segment_migration_end`, which waits for the count.  `migrate_mutex` keeps the
rounds of the four nvm_workers apart.  A thread that sees its flag reads the segment
index, drains its buckets, counts itself and lowers its flag, in this order.

So a round can be closed, and the next one opened, while a thread that has counted
itself has not lowered its flag yet.  What it then lowers is the flag of the new
round.  `State` has all of this as one step relation for `T` threads; `drained` and
`counted` are histories, which no step reads.

Rounds that begin when every flag is down lose nobody (`no_lost_wakeup`).  A round that
begins on a raised flag can lose the thread (`lost_of_raised`), and then never ends
(`lost_forever`).
-/
import Mixdk.Core.Migrate
import Mixdk.Lib.Transition
import Mathlib.Data.Fintype.Card

namespace Mixdk.Rounds

open Transition

set_option autoImplicit false

/-- Where a thread of `migrate` is in its loop. -/
inductive ThreadPc
  /-- `while(!meta_data->migration[thread_idx])` -/
  | see
  /-- Before `segment_idx = *(thread->segment_idx)`. -/
  | readIdx
  /-- Before the walk over the buckets of the segment. -/
  | drain (segmentIdx : SegIdx)
  /-- Before `completed_migrate_thread_num[segment_idx]++`. -/
  | count (segmentIdx : SegIdx)
  /-- Before `meta_data->migration[thread_idx] = false`. -/
  | reset
deriving DecidableEq

/-- Where an nvm_worker is in `mix_migrate_segment`. -/
inductive WorkerPc
  | idle
  /-- It holds `migrate_mutex`; before `mix_segment_migration_begin`. -/
  | locked
  /-- In the wait of `mix_segment_migration_end`. -/
  | migrating
  /-- Before `pthread_mutex_unlock`. -/
  | ended
deriving DecidableEq

structure State (T : Nat) where
  /-- `migrate_mutex` is held. -/
  mutex : Bool
  migrateSegmentIdx : SegIdx
  completedMigrateThreadNum : SegIdx → Nat
  migration : Fin T → Bool
  thread : Fin T → ThreadPc
  worker : SegIdx → WorkerPc
  /-- The segment the thread has drained in this round. -/
  drained : Fin T → Option SegIdx
  /-- The segment the thread has counted itself for in this round. -/
  counted : Fin T → Option SegIdx

/-- All flags down, every thread waiting; `idx` is what `*migrate_segment_idx` happens to be. -/
def init (T : Nat) (idx : SegIdx) : State T :=
  { mutex := false, migrateSegmentIdx := idx, completedMigrateThreadNum := fun _ => 0,
    migration := fun _ => false, thread := fun _ => .see, worker := fun _ => .idle,
    drained := fun _ => none, counted := fun _ => none }

inductive Label (T : Nat)
  /-- `pthread_mutex_lock` of nvm_worker `w` -/
  | lock (w : SegIdx)
  /-- `mix_segment_migration_begin` of nvm_worker `w` -/
  | begin (w : SegIdx)
  /-- `mix_segment_migration_end` of nvm_worker `w` -/
  | finish (w : SegIdx)
  /-- `pthread_mutex_unlock` of nvm_worker `w` -/
  | unlock (w : SegIdx)
  /-- The next step of migrate thread `t` -/
  | thread (t : Fin T)
deriving DecidableEq

section

variable {T : Nat}

namespace State

def setThread (s : State T) (t : Fin T) (pc : ThreadPc) : State T :=
  { s with thread := Function.update s.thread t pc }

def setWorker (s : State T) (w : SegIdx) (pc : WorkerPc) : State T :=
  { s with worker := Function.update s.worker w pc }

/-- `mix_segment_migration_begin` -/
def segmentMigrationBegin (s : State T) (idx : SegIdx) : State T :=
  { s with
    migrateSegmentIdx := idx
    completedMigrateThreadNum := Function.update s.completedMigrateThreadNum idx 0
    migration := fun _ => true
    drained := fun _ => none
    counted := fun _ => none }

/-- `mix_segment_migration_end`, after its wait -/
def segmentMigrationEnd (s : State T) (idx : SegIdx) : State T :=
  { s with completedMigrateThreadNum := Function.update s.completedMigrateThreadNum idx 0 }

/-- The next step of thread `t`; none while its flag is down. -/
def threadStep (s : State T) (t : Fin T) : Option (State T) :=
  match s.thread t with
  | .see => if s.migration t then some (s.setThread t .readIdx) else none
  | .readIdx => some (s.setThread t (.drain s.migrateSegmentIdx))
  | .drain idx => some { s.setThread t (.count idx) with
      drained := Function.update s.drained t (some idx) }
  | .count idx => some { s.setThread t .reset with
      completedMigrateThreadNum := Function.update s.completedMigrateThreadNum idx
        (s.completedMigrateThreadNum idx + 1)
      counted := Function.update s.counted t (some idx) }
  | .reset => some { s.setThread t .see with migration := Function.update s.migration t false }

end State

/-- One step of the nvm_workers and the migrate threads. -/
def step (s : State T) : Label T → Option (State T)
  | .lock w =>
      if s.worker w = .idle ∧ s.mutex = false then
        some { s.setWorker w .locked with mutex := true }
      else none
  | .begin w =>
      if s.worker w = .locked then
        some ((s.segmentMigrationBegin w).setWorker w .migrating)
      else none
  | .finish w =>
      if s.worker w = .migrating ∧ T ≤ s.completedMigrateThreadNum w then
        some ((s.segmentMigrationEnd w).setWorker w .ended)
      else none
  | .unlock w =>
      if s.worker w = .ended then some { s.setWorker w .idle with mutex := false } else none
  | .thread t => s.threadStep t

/-! ## Positions of a thread in a round -/

/-- The thread has its flag and has not counted itself yet. -/
inductive Working (w : SegIdx) (s : State T) (t : Fin T) : Prop
  | see (pc : s.thread t = .see) (flag : s.migration t = true) (fresh : s.counted t = none)
  | readIdx (pc : s.thread t = .readIdx) (flag : s.migration t = true)
      (fresh : s.counted t = none)
  | drain (pc : s.thread t = .drain w) (flag : s.migration t = true) (fresh : s.counted t = none)
  | count (pc : s.thread t = .count w) (flag : s.migration t = true) (fresh : s.counted t = none)
      (drained : s.drained t = some w)

/-- The thread waits with its flag down, or is about to lower it. -/
inductive Resting (s : State T) (t : Fin T) : Prop
  | see (pc : s.thread t = .see) (flag : s.migration t = false)
  | reset (pc : s.thread t = .reset) (flag : s.migration t = true)

/-- The thread has drained its part of segment `w` and counted itself for it. -/
structure Reported (w : SegIdx) (s : State T) (t : Fin T) : Prop where
  resting : Resting s t
  drained : s.drained t = some w
  counted : s.counted t = some w

/-- The thread missed the round: it waits with its flag down, or is about to lower it,
without having counted itself. -/
structure Missed (s : State T) (t : Fin T) : Prop where
  resting : Resting s t
  fresh : s.counted t = none

/-- A round of segment `w` is open: its threads are in one of these positions, and the count
is the number of those that reported. -/
structure Open (w : SegIdx) (s : State T) : Prop where
  idx : s.migrateSegmentIdx = w
  count : s.completedMigrateThreadNum w = (Finset.univ.filter fun t => s.counted t = some w).card
  threads : ∀ t, Working w s t ∨ Reported w s t ∨ Missed s t

variable {s s' : State T} {t u : Fin T} {w v : SegIdx} {label : Label T}

/-! ## Steps of a thread -/

theorem Working.fresh (working : Working w s t) : s.counted t = none := by
  cases working <;> assumption

theorem Working.flag (working : Working w s t) : s.migration t = true := by
  cases working <;> assumption

theorem Working.not_resting (working : Working w s t) : ¬ Resting s t := by
  intro resting
  cases resting with
  | see pc down =>
      rw [working.flag] at down
      cases down
  | reset pc flag =>
      cases working with
      | see pc' | readIdx pc' | drain pc' | count pc' => rw [pc] at pc'; cases pc'

theorem Reported.not_missed (reported : Reported w s t) : ¬ Missed s t := by
  intro missed
  have fresh := missed.fresh
  rw [reported.counted] at fresh
  cases fresh

/-- Everything the other threads' positions depend on stays as it is. -/
structure Aside (s s' : State T) (t : Fin T) : Prop where
  thread : s'.thread t = s.thread t
  migration : s'.migration t = s.migration t
  drained : s'.drained t = s.drained t
  counted : s'.counted t = s.counted t

theorem Aside.symm (aside : Aside s s' t) : Aside s' s t :=
  ⟨aside.thread.symm, aside.migration.symm, aside.drained.symm, aside.counted.symm⟩

theorem Aside.working (aside : Aside s s' t) (working : Working w s t) : Working w s' t := by
  obtain ⟨thread, migration, drained, counted⟩ := aside
  cases working with
  | see pc flag fresh => exact .see (thread ▸ pc) (migration ▸ flag) (counted ▸ fresh)
  | readIdx pc flag fresh => exact .readIdx (thread ▸ pc) (migration ▸ flag) (counted ▸ fresh)
  | drain pc flag fresh => exact .drain (thread ▸ pc) (migration ▸ flag) (counted ▸ fresh)
  | count pc flag fresh done =>
      exact .count (thread ▸ pc) (migration ▸ flag) (counted ▸ fresh) (drained ▸ done)

theorem Aside.resting (aside : Aside s s' t) (resting : Resting s t) : Resting s' t := by
  obtain ⟨thread, migration, -, -⟩ := aside
  cases resting with
  | see pc flag => exact .see (thread ▸ pc) (migration ▸ flag)
  | reset pc flag => exact .reset (thread ▸ pc) (migration ▸ flag)

theorem Aside.reported (aside : Aside s s' t) (reported : Reported w s t) : Reported w s' t :=
  ⟨aside.resting reported.resting, aside.drained ▸ reported.drained,
    aside.counted ▸ reported.counted⟩

theorem Aside.missed (aside : Aside s s' t) (missed : Missed s t) : Missed s' t :=
  ⟨aside.resting missed.resting, aside.counted ▸ missed.fresh⟩

/-- What a step of thread `t` can be. -/
inductive ThreadStep (s : State T) (t : Fin T) : State T → Prop
  | see (pc : s.thread t = .see) (flag : s.migration t = true) :
      ThreadStep s t (s.setThread t .readIdx)
  | readIdx (pc : s.thread t = .readIdx) :
      ThreadStep s t (s.setThread t (.drain s.migrateSegmentIdx))
  | drain (idx : SegIdx) (pc : s.thread t = .drain idx) :
      ThreadStep s t { s.setThread t (.count idx) with
        drained := Function.update s.drained t (some idx) }
  | count (idx : SegIdx) (pc : s.thread t = .count idx) :
      ThreadStep s t { s.setThread t .reset with
        completedMigrateThreadNum := Function.update s.completedMigrateThreadNum idx
          (s.completedMigrateThreadNum idx + 1)
        counted := Function.update s.counted t (some idx) }
  | reset (pc : s.thread t = .reset) :
      ThreadStep s t { s.setThread t .see with
        migration := Function.update s.migration t false }

theorem threadStep_of (stepped : s.threadStep t = some s') : ThreadStep s t s' := by
  unfold State.threadStep at stepped
  split at stepped
  · rename_i pc
    split at stepped
    · rename_i flag
      cases stepped
      exact .see pc flag
    · cases stepped
  · rename_i pc
    cases stepped
    exact .readIdx pc
  · rename_i idx pc
    cases stepped
    exact .drain idx pc
  · rename_i idx pc
    cases stepped
    exact .count idx pc
  · rename_i pc
    cases stepped
    exact .reset pc

/-- What a step can be. -/
inductive StepCases (s : State T) : Label T → State T → Prop
  | lock {w : SegIdx} (idle : s.worker w = .idle) (free : s.mutex = false) :
      StepCases s (.lock w) { s.setWorker w .locked with mutex := true }
  | begin {w : SegIdx} (locked : s.worker w = .locked) :
      StepCases s (.begin w) ((s.segmentMigrationBegin w).setWorker w .migrating)
  | finish {w : SegIdx} (migrating : s.worker w = .migrating)
      (seen : T ≤ s.completedMigrateThreadNum w) :
      StepCases s (.finish w) ((s.segmentMigrationEnd w).setWorker w .ended)
  | unlock {w : SegIdx} (ended : s.worker w = .ended) :
      StepCases s (.unlock w) { s.setWorker w .idle with mutex := false }
  | thread {t : Fin T} {s' : State T} (moved : ThreadStep s t s') : StepCases s (.thread t) s'

theorem step_cases (stepped : step s label = some s') : StepCases s label s' := by
  cases label with
  | lock w =>
      simp only [step] at stepped
      split at stepped
      · rename_i enabled
        cases stepped
        exact .lock enabled.1 enabled.2
      · cases stepped
  | begin w =>
      simp only [step] at stepped
      split at stepped
      · rename_i locked
        cases stepped
        exact .begin locked
      · cases stepped
  | finish w =>
      simp only [step] at stepped
      split at stepped
      · rename_i enabled
        cases stepped
        exact .finish enabled.1 enabled.2
      · cases stepped
  | unlock w =>
      simp only [step] at stepped
      split at stepped
      · rename_i ended
        cases stepped
        exact .unlock ended
      · cases stepped
  | thread t => exact .thread (threadStep_of stepped)

/-- A thread leaves the workers and the other threads alone. -/
theorem ThreadStep.aside (stepped : ThreadStep s u s') (other : t ≠ u) : Aside s s' t := by
  cases stepped <;>
    constructor <;> simp only [State.setThread, Function.update_of_ne other]

theorem ThreadStep.worker (stepped : ThreadStep s t s') :
    s'.worker = s.worker ∧ s'.mutex = s.mutex ∧ s'.migrateSegmentIdx = s.migrateSegmentIdx := by
  cases stepped <;> exact ⟨rfl, rfl, rfl⟩

theorem ThreadStep.resting (stepped : ThreadStep s t s') (resting : Resting s t) :
    Resting s' t ∧ s'.drained = s.drained ∧ s'.counted = s.counted ∧
      s'.completedMigrateThreadNum = s.completedMigrateThreadNum := by
  cases resting with
  | see pc flag =>
      cases stepped with
      | see _ up => rw [flag] at up; cases up
      | readIdx pc' | drain _ pc' | count _ pc' | reset pc' => rw [pc] at pc'; cases pc'
  | reset pc flag =>
      cases stepped with
      | reset _ =>
          refine ⟨.see ?_ ?_, rfl, rfl, rfl⟩
          · apply Function.update_self
          · apply Function.update_self
      | see pc' | readIdx pc' | drain _ pc' | count _ pc' => rw [pc] at pc'; cases pc'

/-- A working thread works on, or counts itself once. -/
theorem ThreadStep.working (stepped : ThreadStep s t s') (idx : s.migrateSegmentIdx = w)
    (working : Working w s t) :
    (Working w s' t ∧ s'.counted = s.counted ∧
        s'.completedMigrateThreadNum = s.completedMigrateThreadNum) ∨
      (Reported w s' t ∧ s'.counted = Function.update s.counted t (some w) ∧
        s'.completedMigrateThreadNum w = s.completedMigrateThreadNum w + 1) := by
  cases working with
  | see pc flag fresh =>
      cases stepped with
      | see _ _ => exact .inl ⟨.readIdx (Function.update_self ..) flag fresh, rfl, rfl⟩
      | readIdx pc' | drain _ pc' | count _ pc' | reset pc' => rw [pc] at pc'; cases pc'
  | readIdx pc flag fresh =>
      cases stepped with
      | readIdx _ =>
          refine .inl ⟨.drain ?_ flag fresh, rfl, rfl⟩
          rw [← idx]
          apply Function.update_self
      | see pc' | drain _ pc' | count _ pc' | reset pc' => rw [pc] at pc'; cases pc'
  | drain pc flag fresh =>
      cases stepped with
      | drain idx pc' =>
          rw [pc] at pc'
          cases pc'
          refine .inl ⟨.count ?_ flag fresh ?_, rfl, rfl⟩
          · apply Function.update_self
          · apply Function.update_self
      | see pc' | readIdx pc' | count _ pc' | reset pc' => rw [pc] at pc'; cases pc'
  | count pc flag fresh done =>
      cases stepped with
      | count idx pc' =>
          rw [pc] at pc'
          cases pc'
          refine .inr ⟨⟨.reset ?_ flag, done, ?_⟩, rfl, ?_⟩
          · apply Function.update_self
          · apply Function.update_self
          · apply Function.update_self
      | see pc' | readIdx pc' | drain _ pc' | reset pc' => rw [pc] at pc'; cases pc'

/-! ## Inside a round -/

theorem card_counted_update {f : Fin T → Option SegIdx} (fresh : f t = none) :
    (Finset.univ.filter fun u => Function.update f t (some w) u = some w).card =
      (Finset.univ.filter fun u => f u = some w).card + 1 := by
  have grown : (Finset.univ.filter fun u => Function.update f t (some w) u = some w) =
      insert t (Finset.univ.filter fun u => f u = some w) := by
    ext u
    by_cases same : u = t
    · simp [same]
    · simp [same]
  rw [grown, Finset.card_insert_of_notMem]
  simp [fresh]

/-- A thread's step keeps the round open, and makes nobody miss it. -/
theorem Open.threadStep (round : Open w s) (stepped : ThreadStep s u s') :
    Open w s' ∧ ∀ t, Missed s' t ↔ Missed s t := by
  obtain ⟨-, -, idx⟩ := stepped.worker
  have here : (Working w s' u ∨ Reported w s' u ∨ Missed s' u) ∧ (Missed s' u ↔ Missed s u) ∧
      s'.completedMigrateThreadNum w =
        (Finset.univ.filter fun t => s'.counted t = some w).card := by
    rcases round.threads u with working | reported | missed
    · have none_missed : ¬ Missed s u := fun missed => working.not_resting missed.resting
      rcases stepped.working round.idx working with
        ⟨working', counted, completed⟩ | ⟨reported, counted, completed⟩
      · refine ⟨.inl working', iff_of_false ?_ none_missed, ?_⟩
        · intro missed
          exact working'.not_resting missed.resting
        · rw [counted, completed, round.count]
      · refine ⟨.inr (.inl reported), iff_of_false reported.not_missed none_missed, ?_⟩
        rw [completed, counted, card_counted_update working.fresh, round.count]
    · obtain ⟨resting, drained, counted, completed⟩ := stepped.resting reported.resting
      have reported' : Reported w s' u :=
        ⟨resting, drained ▸ reported.drained, counted ▸ reported.counted⟩
      refine ⟨.inr (.inl reported'),
        iff_of_false reported'.not_missed reported.not_missed, ?_⟩
      rw [counted, completed, round.count]
    · obtain ⟨resting, -, counted, completed⟩ := stepped.resting missed.resting
      have missed' : Missed s' u := ⟨resting, counted ▸ missed.fresh⟩
      refine ⟨.inr (.inr missed'), iff_of_true missed' missed, ?_⟩
      rw [counted, completed, round.count]
  refine ⟨⟨idx.trans round.idx, here.2.2, ?_⟩, ?_⟩
  · intro t
    by_cases same : t = u
    · rw [same]
      exact here.1
    · have aside := stepped.aside same
      rcases round.threads t with working | reported | missed
      · exact .inl (aside.working working)
      · exact .inr (.inl (aside.reported reported))
      · exact .inr (.inr (aside.missed missed))
  · intro t
    by_cases same : t = u
    · rw [same]
      exact here.2.1
    · have aside := stepped.aside same
      exact ⟨aside.symm.missed, aside.missed⟩

/-- While somebody misses the round, it cannot be closed. -/
theorem Open.count_lt (round : Open w s) (missed : Missed s t) :
    s.completedMigrateThreadNum w < T := by
  rw [round.count]
  have smaller : (Finset.univ.filter fun u => s.counted u = some w) ⊂ Finset.univ := by
    refine Finset.filter_ssubset.2 ⟨t, Finset.mem_univ t, ?_⟩
    rw [missed.fresh]
    intro counted
    cases counted
  have := Finset.card_lt_card smaller
  rwa [Finset.card_univ, Fintype.card_fin] at this

/-- Once the count has reached the number of threads, everybody has reported. -/
theorem Open.all_reported (round : Open w s) (seen : T ≤ s.completedMigrateThreadNum w) (t : Fin T) :
    Reported w s t := by
  have all : (Finset.univ.filter fun u => s.counted u = some w) = Finset.univ := by
    apply Finset.eq_univ_of_card
    apply Nat.le_antisymm
    · apply Finset.card_le_univ
    · rw [Fintype.card_fin, ← round.count]
      exact seen
  have counted : s.counted t = some w := by
    have member : t ∈ Finset.univ.filter fun u => s.counted u = some w := by
      rw [all]
      apply Finset.mem_univ
    exact (Finset.mem_filter.1 member).2
  rcases round.threads t with working | reported | missed
  · rw [working.fresh] at counted
    cases counted
  · exact reported
  · rw [missed.fresh] at counted
    cases counted

/-- A round opened over resting threads: those whose flag was down take part, the others
are about to lower the flag of this round. -/
theorem open_begin (resting : ∀ t, Resting s t) (w : SegIdx) :
    Open w ((s.segmentMigrationBegin w).setWorker w .migrating) := by
  refine ⟨rfl, ?_, ?_⟩
  · simp [State.segmentMigrationBegin, State.setWorker]
  · intro t
    cases resting t with
    | see pc flag => exact .inl (.see pc rfl rfl)
    | reset pc flag => exact .inr (.inr ⟨.reset pc rfl, rfl⟩)

/-! ## Runs -/

/-- Between rounds all threads rest, in a round they are in one of its positions, and at its end all
have counted themselves; the holder of the mutex is the only worker in the section. -/
structure Inv (s : State T) : Prop where
  free : s.mutex = false ↔ ∀ w, s.worker w = .idle
  one : ∀ w v, s.worker w ≠ .idle → s.worker v ≠ .idle → w = v
  inRound : ∀ w, s.worker w = .migrating → Open w s
  ended : ∀ w, s.worker w = .ended → ∀ t, s.counted t = some w
  between : (∀ w, s.worker w ≠ .migrating) → ∀ t, Resting s t

/-- Nobody misses a round. -/
def Attended (s : State T) : Prop := ∀ w, s.worker w = .migrating → ∀ t, ¬ Missed s t

/-- A round begins when every flag is down. -/
def BeginGuard (s : State T) : Label T → Prop
  | .begin _ => ∀ t, s.migration t = false
  | _ => True

instance (s : State T) : DecidablePred (BeginGuard s)
  | .begin _ => inferInstanceAs (Decidable (∀ _, _))
  | .lock _ | .finish _ | .unlock _ | .thread _ => .isTrue trivial

theorem inv_init (T : Nat) (idx : SegIdx) : Inv (init T idx) where
  free := iff_of_true rfl fun _ => rfl
  one := fun _ _ busy => absurd rfl busy
  inRound := fun _ migrating => by cases migrating
  ended := fun _ ended => by cases ended
  between := fun _ _ => .see rfl rfl

theorem Inv.others (inv : Inv s) (busy : s.worker w ≠ .idle) : ∀ v, v ≠ w → s.worker v = .idle := by
  intro v other
  by_contra notIdle
  exact other (inv.one v w notIdle busy)

theorem Inv.held (inv : Inv s) (busy : s.worker w ≠ .idle) : s.mutex = true := by
  by_contra unlocked
  exact busy (inv.free.1 (Bool.eq_false_of_not_eq_true unlocked) w)

/-- Who waits for the mutex waits for a worker in the section. -/
theorem Inv.holder (inv : Inv s) (held : s.mutex = true) : ∃ w, s.worker w ≠ .idle := by
  by_contra nobody
  simp only [not_exists, not_not] at nobody
  have unlocked := inv.free.2 nobody
  rw [held] at unlocked
  cases unlocked

/-- The invariant after worker `w` has moved to `pc`, when no other worker is in the section. -/
theorem Inv.of_moved (pc : WorkerPc) (worker : s'.worker = Function.update s.worker w pc)
    (others : ∀ v, v ≠ w → s.worker v = .idle) (free : s'.mutex = false ↔ pc = .idle)
    (inRound : pc = .migrating → Open w s') (ended : pc = .ended → ∀ t, s'.counted t = some w)
    (between : pc ≠ .migrating → ∀ t, Resting s' t) : Inv s' := by
  have here : s'.worker w = pc := by
    rw [worker]
    apply Function.update_self
  have there : ∀ v, v ≠ w → s'.worker v = .idle := by
    intro v other
    rw [worker, Function.update_of_ne other]
    exact others v other
  have only : ∀ v, s'.worker v ≠ .idle → v = w := by
    intro v busy
    by_contra other
    exact busy (there v other)
  refine ⟨?_, ?_, ?_, ?_, ?_⟩
  · rw [free, ← here]
    constructor
    · intro idle v
      by_cases same : v = w
      · rw [same]
        exact idle
      · exact there v same
    · intro idle
      exact idle w
  · intro a b busyA busyB
    exact (only a busyA).trans (only b busyB).symm
  · intro v migrating
    have same : v = w := by
      apply only
      rw [migrating]
      nofun
    rw [same] at migrating ⊢
    exact inRound (here ▸ migrating)
  · intro v done
    have same : v = w := by
      apply only
      rw [done]
      nofun
    rw [same] at done ⊢
    exact ended (here ▸ done)
  · intro none
    apply between
    rw [← here]
    exact none w

/-- Outside the thread steps the threads stay where they are. -/
theorem Resting.congr (resting : Resting s t) (thread : s'.thread = s.thread)
    (migration : s'.migration = s.migration) : Resting s' t := by
  cases resting with
  | see pc flag => exact .see (thread ▸ pc) (migration ▸ flag)
  | reset pc flag => exact .reset (thread ▸ pc) (migration ▸ flag)

theorem Inv.lock (inv : Inv s) (stepped : step s (.lock w) = some s') : Inv s' := by
  cases step_cases stepped with
  | lock _ free =>
      have idle := inv.free.1 free
      have resting : ∀ t, Resting s t := by
        apply inv.between
        intro v
        rw [idle v]
        nofun
      refine Inv.of_moved .locked rfl (fun v _ => idle v) (iff_of_false nofun nofun) nofun nofun ?_
      intro _ t
      exact (resting t).congr rfl rfl

/-- A worker that is in the section, but not in a round, sees all threads at rest. -/
theorem Inv.resting (inv : Inv s) (busy : s.worker w ≠ .idle)
    (notMigrating : s.worker w ≠ .migrating) (t : Fin T) : Resting s t := by
  apply inv.between
  intro v
  by_cases same : v = w
  · rw [same]
    exact notMigrating
  · rw [inv.others busy v same]
    nofun

/-- A worker that moves on inside the section keeps the mutex. -/
theorem Inv.still_held (inv : Inv s) (busy : s.worker w ≠ .idle) : ¬ s.mutex = false := by
  rw [inv.held busy]
  nofun

theorem Inv.begin (inv : Inv s) (stepped : step s (.begin w) = some s') : Inv s' := by
  cases step_cases stepped with
  | begin locked =>
      have busy : s.worker w ≠ .idle := by rw [locked]; nofun
      have resting := inv.resting busy (by rw [locked]; nofun)
      exact Inv.of_moved .migrating rfl (inv.others busy)
        (iff_of_false (inv.still_held busy) nofun) (fun _ => open_begin resting w) nofun
        (fun other => absurd rfl other)

theorem Inv.finish (inv : Inv s) (stepped : step s (.finish w) = some s') : Inv s' := by
  cases step_cases stepped with
  | finish migrating seen =>
      have busy : s.worker w ≠ .idle := by rw [migrating]; nofun
      have reported := (inv.inRound w migrating).all_reported seen
      refine Inv.of_moved .ended rfl (inv.others busy) (iff_of_false (inv.still_held busy) nofun)
        nofun (fun _ t => (reported t).counted) ?_
      intro _ t
      exact (reported t).resting.congr rfl rfl

theorem Inv.unlock (inv : Inv s) (stepped : step s (.unlock w) = some s') : Inv s' := by
  cases step_cases stepped with
  | unlock ended =>
      have busy : s.worker w ≠ .idle := by rw [ended]; nofun
      refine Inv.of_moved .idle rfl (inv.others busy) (iff_of_true rfl rfl) nofun nofun ?_
      intro _ t
      exact (inv.resting busy (by rw [ended]; nofun) t).congr rfl rfl

theorem Inv.thread (inv : Inv s) (stepped : ThreadStep s u s') : Inv s' := by
  obtain ⟨worker, mutex, -⟩ := stepped.worker
  refine ⟨?_, ?_, ?_, ?_, ?_⟩
  · rw [worker, mutex]
    exact inv.free
  · rw [worker]
    exact inv.one
  · intro w migrating
    rw [worker] at migrating
    exact ((inv.inRound w migrating).threadStep stepped).1
  · intro w ended
    rw [worker] at ended
    have resting := inv.resting (w := w) (by rw [ended]; nofun) (by rw [ended]; nofun) u
    rw [(stepped.resting resting).2.2.1]
    exact inv.ended w ended
  · intro none t
    rw [worker] at none
    have resting := inv.between none
    by_cases same : t = u
    · rw [same]
      exact (stepped.resting (resting u)).1
    · exact (stepped.aside same).resting (resting t)

theorem Inv.step (inv : Inv s) (stepped : step s label = some s') : Inv s' := by
  cases label with
  | lock w => exact inv.lock stepped
  | begin w => exact inv.begin stepped
  | finish w => exact inv.finish stepped
  | unlock w => exact inv.unlock stepped
  | thread t => exact inv.thread (threadStep_of stepped)

/-- Where no round is open after a step of worker `w`, none was open with another. -/
theorem Attended.of_moved {pc : WorkerPc} (worker : s'.worker = Function.update s.worker w pc)
    (others : ∀ v, v ≠ w → s.worker v = .idle) (moved : pc ≠ .migrating) : Attended s' := by
  intro v migrating
  rw [worker] at migrating
  by_cases same : v = w
  · rw [same, Function.update_self] at migrating
    exact absurd migrating moved
  · rw [Function.update_of_ne same, others v same] at migrating
    cases migrating

/-- Over flags that are down a round begins with all threads. -/
theorem Attended.begin (inv : Inv s) (down : ∀ t, s.migration t = false)
    (stepped : Rounds.step s (.begin w) = some s') : Attended s' := by
  cases step_cases stepped with
  | begin locked =>
      intro v _ t missed
      cases inv.resting (by rw [locked]; nofun) (by rw [locked]; nofun) t with
      | see pc flag =>
          have working : Working w ((s.segmentMigrationBegin w).setWorker w .migrating) t :=
            .see pc rfl rfl
          exact working.not_resting missed.resting
      | reset pc flag =>
          rw [down t] at flag
          cases flag

theorem Attended.step (attended : Attended s) (inv : Inv s) (guarded : BeginGuard s label)
    (stepped : Rounds.step s label = some s') : Attended s' := by
  cases step_cases stepped with
  | begin => exact .begin inv guarded stepped
  | thread moved =>
      intro w migrating u
      rw [moved.worker.1] at migrating
      rw [((inv.inRound w migrating).threadStep moved).2 u]
      exact attended w migrating u
  | lock _ free => exact .of_moved rfl (fun v _ => inv.free.1 free v) nofun
  | finish migrating => exact .of_moved rfl (inv.others (by rw [migrating]; nofun)) nofun
  | unlock ended => exact .of_moved rfl (inv.others (by rw [ended]; nofun)) nofun

/-- Thread `t` waits with its flag down, uncounted, while nvm_worker `w` waits for it. -/
structure LostWakeup (w : SegIdx) (s : State T) (t : Fin T) : Prop where
  migrating : s.worker w = .migrating
  waits : s.thread t = .see
  flag : s.migration t = false
  uncounted : s.counted t ≠ some w

/-- **In a run whose rounds begin with every flag down, from the begin of a round to its end
each thread has its flag, or has drained its part and counted itself; nobody is lost.** -/
theorem no_lost_wakeup {idx : SegIdx} {labels : List (Label T)}
    (run : Run Rounds.step BeginGuard (init T idx) labels s) (migrating : s.worker w = .migrating)
    (t : Fin T) :
    (s.migration t = true ∨ (s.drained t = some w ∧ s.counted t = some w)) ∧
      ¬ LostWakeup w s t := by
  obtain ⟨inv, attended⟩ : Inv s ∧ Attended s :=
    run.invariant (I := fun s => Inv s ∧ Attended s)
      (fun _ _ _ ⟨inv, attended⟩ met stepped => ⟨inv.step stepped, attended.step inv met stepped⟩)
      ⟨inv_init T idx, fun _ migrating => nomatch migrating⟩
  have round := inv.inRound w migrating
  rcases round.threads t with working | reported | missed
  · refine ⟨.inl working.flag, ?_⟩
    intro lost
    have flag := lost.flag
    rw [working.flag] at flag
    cases flag
  · exact ⟨.inr ⟨reported.drained, reported.counted⟩, fun lost => lost.uncounted reported.counted⟩
  · exact absurd missed (attended w migrating t)

/-! ## A lost wake-up -/

theorem threadStep_reset (pc : s.thread t = .reset) :
    s.threadStep t = some { s.setThread t .see with
      migration := Function.update s.migration t false } := by
  simp only [State.threadStep, pc]

/-- A round that begins on a raised flag: the thread's next step loses its wake-up. -/
theorem lost_of_raised (inv : Inv s) (locked : s.worker w = .locked)
    (raised : s.migration t = true) :
    ∃ s', exec step s [.begin w, .thread t] = some s' ∧ LostWakeup w s' t := by
  have resting := inv.resting (w := w) (by rw [locked]; nofun) (by rw [locked]; nofun) t
  cases resting with
  | see pc down =>
      rw [down] at raised
      cases raised
  | reset pc flag =>
      have opened : step s (.begin w) = some ((s.segmentMigrationBegin w).setWorker w .migrating) :=
        if_pos locked
      have lowered := threadStep_reset (s := (s.segmentMigrationBegin w).setWorker w .migrating) pc
      refine ⟨_, exec_cons_eq_some.2 ⟨_, opened, exec_cons_eq_some.2 ⟨_, lowered, rfl⟩⟩, ?_⟩
      refine ⟨?_, ?_, ?_, nofun⟩
      · apply Function.update_self
      · apply Function.update_self
      · apply Function.update_self

/-- A round of worker `w` that thread `t` misses. -/
structure Hung (w : SegIdx) (t : Fin T) (s : State T) : Prop where
  round : Open w s
  missed : Missed s t
  migrating : s.worker w = .migrating
  others : ∀ v, v ≠ w → s.worker v = .idle
  held : s.mutex = true

theorem Hung.step (hung : Hung w t s) (stepped : step s label = some s') : Hung w t s' := by
  have position : ∀ v, s.worker v = .migrating ∧ v = w ∨ s.worker v = .idle := by
    intro v
    by_cases same : v = w
    · exact .inl ⟨same ▸ hung.migrating, same⟩
    · exact .inr (hung.others v same)
  cases step_cases stepped with
  | thread moved =>
      obtain ⟨worker, mutex, -⟩ := moved.worker
      obtain ⟨round, missed⟩ := hung.round.threadStep moved
      exact ⟨round, (missed t).2 hung.missed, worker ▸ hung.migrating, worker ▸ hung.others,
        mutex.trans hung.held⟩
  | lock _ free =>
      rw [hung.held] at free
      cases free
  | @finish v migrating seen =>
      rcases position v with ⟨-, rfl⟩ | idle
      · exact absurd seen (Nat.not_le.2 (hung.round.count_lt hung.missed))
      · rw [idle] at migrating
        cases migrating
  | @begin v at_ | @unlock v at_ =>
      rcases position v with ⟨migrating, -⟩ | idle
      · rw [migrating] at at_
        cases at_
      · rw [idle] at at_
        cases at_

/-- **Then the round never ends: whatever runs, the worker waits, with the mutex held.** -/
theorem lost_forever (inv : Inv s) (opened : step s (.begin w) = some s')
    (raised : s.migration t = true) {s'' : State T} {labels : List (Label T)}
    (ran : exec step s' labels = some s'') :
    s''.worker w = .migrating ∧ s''.mutex = true ∧ s''.counted t = none := by
  cases step_cases opened with
  | begin locked =>
      have busy : s.worker w ≠ .idle := by rw [locked]; nofun
      have resting := inv.resting busy (by rw [locked]; nofun)
      have hung : Hung w t ((s.segmentMigrationBegin w).setWorker w .migrating) := by
        refine ⟨open_begin resting w, ?_, Function.update_self .., ?_, ?_⟩
        · cases resting t with
          | see pc down =>
              rw [down] at raised
              cases raised
          | reset pc flag => exact ⟨.reset pc rfl, rfl⟩
        · intro v other
          exact (Function.update_of_ne other ..).trans (inv.others busy v other)
        · exact inv.held busy
      have hung' : Hung w t s'' :=
        exec_invariant (I := Hung w t) (fun _ _ _ hung stepped => hung.step stepped) ran hung
      exact ⟨hung'.migrating, hung'.held, hung'.missed.fresh⟩

end

/-- In the first round thread 7 counts itself and has not lowered its flag when the round is
closed and nvm_worker 1 begins the next. -/
def lateReset : List (Label MIGRATE_THREAD_NUM) :=
  [.lock 0, .begin 0] ++
    (List.finRange MIGRATE_THREAD_NUM).flatMap (fun t => List.replicate 4 (.thread t)) ++
    ((List.finRange MIGRATE_THREAD_NUM).take 7).map .thread ++
    [.finish 0, .unlock 0, .lock 1, .begin 1, .thread 7]

theorem lateReset_lost :
    ∃ s, exec step (init MIGRATE_THREAD_NUM 0) lateReset = some s ∧ LostWakeup 1 s 7 := by
  have run : (exec step (init MIGRATE_THREAD_NUM 0) lateReset).map
      (fun s => (s.worker 1, s.thread 7, s.migration 7, s.counted 7)) =
        some (.migrating, .see, false, none) := by decide +kernel
  obtain ⟨s, ran, there⟩ := Option.map_eq_some_iff.1 run
  simp only [Prod.mk.injEq] at there
  obtain ⟨migrating, waits, flag, uncounted⟩ := there
  refine ⟨s, ran, migrating, waits, flag, ?_⟩
  rw [uncounted]
  nofun

/-- A round to whose end every thread has lowered its flag, and the begin of the next. -/
def promptReset : List (Label MIGRATE_THREAD_NUM) :=
  [.lock 0, .begin 0] ++
    (List.finRange MIGRATE_THREAD_NUM).flatMap (fun t => List.replicate 5 (.thread t)) ++
    [.finish 0, .unlock 0, .lock 1, .begin 1, .thread 7]

theorem promptReset_not_lost :
    ∃ s, Run step BeginGuard (init MIGRATE_THREAD_NUM 0) promptReset s ∧
      s.worker 1 = .migrating ∧ ∀ t, ¬ LostWakeup 1 s t := by
  have ends : (exec (fun s label => if decide (BeginGuard s label) then step s label else none)
      (init MIGRATE_THREAD_NUM 0) promptReset).map (fun s => s.worker 1) = some .migrating := by
    decide +kernel
  obtain ⟨s, ran, migrating⟩ := Option.map_eq_some_iff.1 ends
  have run := Run.of_checked (fun _ _ => of_decide_eq_true) ran
  refine ⟨s, run, migrating, ?_⟩
  intro t
  exact (no_lost_wakeup run migrating t).2

end Mixdk.Rounds
