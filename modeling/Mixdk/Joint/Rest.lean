/-
# Joint.Rest -- what every fair schedule of all threads comes to

Under every fair schedule the requests are executed and all threads idle, from some turn on; or an
nvm_worker searches for ever for a clear bit (`Pipeline.Spins`); or one waits for ever in
`mix_segment_migration_end`, with `migrate_mutex` held, for a migrate thread that has lowered the flag of
the new round in place of that of the round before (`Rounds.Hung`): this is `comes_to_rest`.

Who waits in a handshake waits for another thread: for `queue_empty` the ssd_worker has to go on, for
the mutex its holder, for the count a migrate thread that has not counted itself.  When one of these is too
late for its flag, the round is lost; this takes a round that begins before all flags are down
(`Joint.not_hung`).
-/
import Mixdk.Joint.Helps

namespace Mixdk

open Transition

set_option autoImplicit false

namespace Joint

open Pipeline (ThreadTurn)

section

variable {P H submitQueueNum capacity : Nat} {s t : Joint} {idx : SegIdx}

/-! ## Some thread can go on -/

/-- All requests are executed, and all threads idle. -/
structure AtRest (submitQueueNum : Nat) (s : Joint) : Prop where
  pipe : s.pipe.AtRest submitQueueNum
  free : s.rounds.mutex = false
  threads : ∀ t, s.rounds.thread t = .see ∧ s.rounds.migration t = false

/-- Where every fair schedule leads. -/
def Settled (submitQueueNum : Nat) (s : Joint) : Prop :=
  s.AtRest submitQueueNum ∨ (∃ idx, s.pipe.Spins idx) ∨ ∃ w t, Rounds.Hung w t s.rounds

/-- With the pipeline at rest, no worker is in a migration. -/
theorem Steady.rest_idle (steady : s.Steady P H submitQueueNum)
    (rest : s.pipe.AtRest submitQueueNum) (w : SegIdx) : s.rounds.worker w = .idle := by
  have poll := (rest.station w).2.2.1
  have notMigrating (round : s.rounds.worker w = .migrating ∨ s.rounds.worker w = .ended) : False := by
    obtain ⟨task, pc, migrating, -⟩ := steady.migrating round
    rw [poll] at migrating
    cases migrating
  cases at_ : s.rounds.worker w with
  | idle => rfl
  | locked =>
      obtain ⟨⟨task, full⟩, -⟩ := steady.linked.locked w at_
      rw [poll] at full
      cases full
  | migrating => exact (notMigrating (.inl at_)).elim
  | ended => exact (notMigrating (.inr at_)).elim

/-- Then the migrate threads come to rest, when they have lowered their flags. -/
theorem Steady.rest_helper (steady : s.Steady P H submitQueueNum)
    (rest : s.pipe.AtRest submitQueueNum) : s.AtRest submitQueueNum ∨
      ∃ turn k, ThreadTurn submitQueueNum turn ∧ Helps capacity submitQueueNum s turn k := by
  have idle := steady.rest_idle rest
  by_cases late : ∃ t, s.rounds.thread t = .reset
  · obtain ⟨t, at_⟩ := late
    exact .inr ⟨.migrate t, 0, trivial, .lower at_⟩
  rw [not_exists] at late
  refine .inl ⟨rest, steady.rounds.free.2 idle, fun t => ?_⟩
  cases steady.rounds.between (fun w => by rw [idle w]; nofun) t with
  | see pc flag => exact ⟨pc, flag⟩
  | reset pc => exact absurd pc (late t)

/-- In a round that is open, a migrate thread can go on or the nvm_worker can, or a thread misses it. -/
theorem Steady.round_helper (steady : s.Steady P H submitQueueNum)
    (migrating : s.rounds.worker idx = .migrating) :
    (∃ w t, Rounds.Hung w t s.rounds) ∨
      ∃ turn k, ThreadTurn submitQueueNum turn ∧ Helps capacity submitQueueNum s turn k := by
  have round := steady.rounds.inRound idx migrating
  have busy : s.rounds.worker idx ≠ .idle := by rw [migrating]; nofun
  by_cases late : ∃ thread, Rounds.Missed s.rounds thread
  · obtain ⟨thread, missed⟩ := late
    exact .inl ⟨idx, thread, round, missed, migrating, steady.rounds.others busy,
      steady.rounds.held busy⟩
  by_cases work : ∃ thread, Rounds.Working idx s.rounds thread
  · obtain ⟨thread, working⟩ := work
    exact .inr ⟨.migrate thread, 0, trivial, .thread migrating working⟩
  rw [not_exists] at late work
  have counted : ∀ thread, s.rounds.counted thread = some idx := by
    intro thread
    rcases round.threads thread with working | reported | missed
    · exact absurd working (work thread)
    · exact reported.counted
    · exact absurd missed (late thread)
  refine .inr ⟨.nvm idx, 0, trivial, .finish migrating ?_⟩
  rw [round.count, Finset.filter_true_of_mem fun thread _ => counted thread, Finset.card_univ,
    Fintype.card_fin]

/-- A worker in front of a migration waits for another, who can go on, or can go on. -/
theorem Steady.full_helper (steady : s.Steady P H submitQueueNum) {task : IoTask}
    (full : (s.pipe.station idx).nvm = .full task) (free : s.pipe.migration = none)
    (poll : (s.pipe.station idx).ssd = .poll) (empty : (s.pipe.station idx).ssdQueue = []) :
    ∃ turn k, ThreadTurn submitQueueNum turn ∧ Helps capacity submitQueueNum s turn k := by
  have notRunning : ∀ w, s.rounds.worker w = .idle ∨ s.rounds.worker w = .locked := by
    intro w
    cases at_ : s.rounds.worker w with
    | idle => exact .inl rfl
    | locked => exact .inr rfl
    | migrating =>
        obtain ⟨pc, running⟩ := (steady.linked.running w).1 (.inl at_)
        rw [free] at running
        cases running
    | ended =>
        obtain ⟨pc, running⟩ := (steady.linked.running w).1 (.inr at_)
        rw [free] at running
        cases running
  by_cases waited : s.waited idx = true
  · rcases notRunning idx with idle | locked
    · cases held : s.rounds.mutex with
      | false => exact ⟨.nvm idx, 0, trivial, .lock full waited idle held⟩
      | true =>
          obtain ⟨w, busy⟩ := steady.rounds.holder held
          exact ⟨.nvm w, 0, trivial, .begin ((notRunning w).resolve_left busy)⟩
    · exact ⟨.nvm idx, 0, trivial, .begin locked⟩
  · have waits := Bool.eq_false_of_not_eq_true waited
    by_cases up : s.queueEmpty idx = true
    · exact ⟨.nvm idx, 0, trivial, .test full waits up⟩
    · exact ⟨.ssd idx, 1, trivial, .found poll empty (Bool.eq_false_of_not_eq_true up)⟩

/-- **Short of the end, some thread can go on.** -/
theorem Steady.helper (room : 0 < capacity) (steady : s.Steady P H submitQueueNum) :
    s.Settled submitQueueNum ∨
      ∃ turn k, ThreadTurn submitQueueNum turn ∧ Helps capacity submitQueueNum s turn k := by
  by_cases work : ∃ idx, (s.pipe.station idx).ssd ≠ .poll ∨ (s.pipe.station idx).ssdQueue ≠ []
  · obtain ⟨idx, work⟩ := work
    exact .inr ⟨.ssd idx, 1, trivial, .ssdSet work⟩
  simp only [not_exists, not_or, not_not] at work
  have inMigration {idx : SegIdx} {pc : Fin MIGRATE_THREAD_NUM → MigratePc}
      (running : s.pipe.migration = some (idx, pc)) : s.Settled submitQueueNum ∨
        ∃ turn k, ThreadTurn submitQueueNum turn ∧ Helps capacity submitQueueNum s turn k := by
    rcases (steady.linked.running idx).2 ⟨pc, running⟩ with migrating | ended
    · exact (steady.round_helper migrating).imp_left fun hung => .inr (.inr hung)
    · exact .inr ⟨.nvm idx, 0, trivial, .unlock ended⟩
  rcases steady.pipe.helper room with rest | ⟨turn, k, thread, helps⟩
  · exact (steady.rest_helper rest).imp_left .inl
  cases helps with
  | post next empty => exact .inr ⟨_, _, thread, .post (.post next empty)⟩
  | poll hand waiting => exact .inr ⟨_, _, thread, .scheduler (.poll hand waiting)⟩
  | handNvm hand inside free => exact .inr ⟨_, _, thread, .scheduler (.handNvm hand inside free)⟩
  | handBuffer hand free => exact .inr ⟨_, _, thread, .scheduler (.handBuffer hand free)⟩
  | take poll waiting => exact .inr ⟨_, _, thread, .take poll waiting⟩
  | turn poll waiting => exact .inr ⟨_, _, thread, .turn poll waiting⟩
  | deed doing free => exact .inr ⟨_, _, thread, .deed doing free⟩
  | @full idx task full free =>
      exact .inr (steady.full_helper full free (work idx).1 (work idx).2)
  | migrated _ running | walk running => exact inMigration running
  | @ssdTake idx _ waiting => exact absurd (work idx).2 waiting
  | @ssdWork idx busy => exact absurd (work idx).1 busy

/-! ## Rounds that are not lost -/

/-- Who begins a round finds all flags down. -/
def BeginsDown (s : Joint) : Pipeline.Turn → Prop
  | .nvm idx => s.rounds.worker idx = .locked → ∀ t, s.rounds.migration t = false
  | .post _ | .free .. | .scheduler | .ssd _ | .migrate _ => True

theorem attended_step (attended : Rounds.Attended s.rounds) (inv : Rounds.Inv s.rounds)
    {turn : Pipeline.Turn} (down : s.BeginsDown turn)
    (stepped : s.step submitQueueNum capacity turn = some t) : Rounds.Attended t.rounds := by
  cases step_cases stepped with
  | pipe | test | set | found | take => exact attended
  | lock _ _ moved | finish _ moved | unlock _ moved | thread _ moved =>
      refine attended.step inv ?_ moved
      trivial
  | begin _ _ begun =>
      refine attended.step inv ?_ begun
      cases Rounds.step_cases begun with
      | begin locked => exact down locked

/-- **In a run whose rounds begin with all flags down no worker waits for ever.** -/
theorem not_hung {m : Machine} {region : Nat → Block} {requests : Nat → List Request}
    {segmentIdx : SegIdx} {turns : List Pipeline.Turn}
    (run : Run (step submitQueueNum capacity) BeginsDown (.start m region requests segmentIdx) turns s)
    {w : SegIdx} {thread : Fin MIGRATE_THREAD_NUM} : ¬ Rounds.Hung w thread s.rounds := by
  obtain ⟨-, attended⟩ : Rounds.Inv s.rounds ∧ Rounds.Attended s.rounds := by
    refine run.invariant (I := fun s => Rounds.Inv s.rounds ∧ Rounds.Attended s.rounds) ?_
      ⟨Rounds.inv_init _ segmentIdx, fun _ migrating => by cases migrating⟩
    rintro s turn t ⟨inv, attended⟩ down stepped
    refine ⟨?_, attended_step attended inv down stepped⟩
    rcases (step_cases stepped).rounds_step with same | ⟨label, moved⟩
    · rwa [same]
    · exact inv.step moved
  intro hung
  exact attended w hung.migrating thread hung.missed

/-! ## What is settled stays so -/

theorem Steady.rest_stays (steady : s.Steady P H submitQueueNum) (rest : s.AtRest submitQueueNum)
    {turn : Pipeline.Turn} (stepped : s.step submitQueueNum capacity turn = some t) :
    t.AtRest submitQueueNum := by
  have pipe : t.pipe.AtRest submitQueueNum := by
    rcases (step_cases stepped).pipe_step with same | moved
    · rw [same]
      exact rest.pipe
    · exact (steady.pipe.rest_looks rest.pipe moved).unmoved.atRest rest.pipe
  have rounds : t.rounds = s.rounds := by
    have poll (idx : SegIdx) := (rest.pipe.station idx).2.2.1
    cases step_cases stepped with
    | pipe | test | set | found | take => rfl
    | lock full | begin full | finish full | unlock full =>
        rw [poll] at full
        cases full
    | @thread thread _ _ moved =>
        obtain ⟨see, down⟩ := rest.threads thread
        simp [Rounds.step, Rounds.State.threadStep, see, down] at moved
  exact ⟨pipe, rounds ▸ rest.free, rounds ▸ rest.threads⟩

theorem Steady.spins_stay (steady : s.Steady P H submitQueueNum) (spins : s.pipe.Spins idx)
    {turn : Pipeline.Turn} (stepped : s.step submitQueueNum capacity turn = some t) :
    t.pipe.Spins idx := by
  rcases (step_cases stepped).pipe_step with same | moved
  · rwa [same]
  · exact steady.pipe.spins_stay spins moved

theorem hung_stays {w : SegIdx} {thread : Fin MIGRATE_THREAD_NUM}
    (hung : Rounds.Hung w thread s.rounds) {turn : Pipeline.Turn}
    (stepped : s.step submitQueueNum capacity turn = some t) : Rounds.Hung w thread t.rounds := by
  rcases (step_cases stepped).rounds_step with same | ⟨label, moved⟩
  · rwa [same]
  · exact hung.step moved

end

/-! ## Fair schedules -/

theorem progress {capacity : Nat} (room : 0 < capacity) (P H submitQueueNum : Nat) :
    Progress (step submitQueueNum capacity) (ThreadTurn submitQueueNum)
      (Steady P H submitQueueNum) (Settled submitQueueNum) (weight H submitQueueNum)
      (Helps capacity submitQueueNum) where
  preserved := fun _ _ _ steady stepped => steady.step stepped
  helper := fun _ steady => steady.helper room
  others := fun _ _ _ _ _ steady helps other stepped =>
    (steady.weight_lt stepped).imp_right fun ⟨light, unmoved⟩ => ⟨light, helps.keep other unmoved⟩
  helps := fun _ _ _ steady helps =>
    (helps.progress room steady).imp_left fun spins => .inr (.inl spins)

end Joint

/-- Two writes of a single block, a write of two stripes and a read of them. -/
def fourRequests : List Request :=
  [.write 0 1 SCHEDULER_THRESHOLD 0 0, .write 1 1 (SCHEDULER_THRESHOLD + 4) 0 0,
    .write 2 8 SCHEDULER_THRESHOLD 0 0, .read 10 8 SCHEDULER_THRESHOLD 0 0 0]

end Mixdk
