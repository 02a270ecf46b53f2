/-
# Joint.Helps -- the thread that can go on, with the handshakes

`Joint.weight` is what the pipeline has left to do, and what is left of the handshakes; no step makes it
larger.  `Joint.Helps` says of a thread, as `Pipeline.Helps` does, that it makes it smaller when it is
tried: the ssd_worker has to write `queue_empty` before it goes on, an nvm_worker has to get the mutex,
and a migrate thread has to be in the round.
-/
import Mixdk.Joint.Links

namespace Mixdk

open Transition

set_option autoImplicit false

namespace Rounds

theorem Working.enabled {T : Nat} {w : SegIdx} {s : State T} {t : Fin T} (working : Working w s t) :
    ∃ s', s.threadStep t = some s' := by
  cases working with
  | see at_ flag => exact ⟨_, by simp only [State.threadStep, at_, flag, if_true]; rfl⟩
  | readIdx at_ | drain at_ | count at_ => exact ⟨_, by simp only [State.threadStep, at_]; rfl⟩

/-! ## What is left of the handshakes -/

/-- Steps of a migrate thread up to the end of its round, apart from its walk. -/
def ThreadPc.left (flag : Bool) : ThreadPc → Nat
  | .see => if flag then 5 else 0
  | .readIdx => 4
  | .drain _ => 3
  | .count _ => 2
  | .reset => 1

def WorkerPc.left : WorkerPc → Nat
  | .idle => 2
  | .locked | .migrating => 1
  | .ended => 0

theorem ThreadPc.left_le (flag : Bool) (pc : ThreadPc) : pc.left flag ≤ 5 := by
  cases pc with
  | see => cases flag <;> simp [ThreadPc.left]
  | readIdx | drain | count | reset => simp [ThreadPc.left]

theorem WorkerPc.left_le (pc : WorkerPc) : pc.left ≤ 2 := by
  cases pc <;> simp [WorkerPc.left]

end Rounds

theorem Pipeline.Unmoved.refl (turn : Pipeline.Turn) (s : Pipeline) : Pipeline.Unmoved turn s s :=
  ⟨rfl, rfl, rfl, rfl, rfl, fun _ => rfl, fun j => ⟨(s.station j).odd, rfl⟩, fun _ _ => rfl⟩

namespace Joint

open Pipeline (ThreadTurn)

def threadLeft (s : Joint) (t : Fin MIGRATE_THREAD_NUM) : Nat :=
  (s.rounds.thread t).left (s.rounds.migration t)

def workerLeft (s : Joint) (idx : SegIdx) : Nat :=
  (s.rounds.worker idx).left + (if s.waited idx then 0 else 1) +
    (if s.queueEmpty idx then 0 else 1) + if s.answer idx = some false then 2 else 0

/-- What is left of the handshakes. -/
def signals (s : Joint) : Nat := ∑ t, s.threadLeft t + ∑ idx, s.workerLeft idx

/-- A step of what the pipeline has left outweighs all handshakes. -/
def weight (H submitQueueNum : Nat) (s : Joint) : Nat :=
  100 * s.pipe.weight H submitQueueNum + s.signals

section

variable {P H submitQueueNum capacity : Nat} {s t : Joint} {idx : SegIdx}

theorem signals_lt (s : Joint) : s.signals < 100 := by
  have worker (idx : SegIdx) : s.workerLeft idx ≤ 6 := by
    have pc := (s.rounds.worker idx).left_le
    unfold workerLeft
    split <;> split <;> split <;> omega
  have threads : ∑ t, s.threadLeft t ≤ 40 :=
    Finset.sum_le_card_nsmul Finset.univ s.threadLeft 5 fun t _ => Rounds.ThreadPc.left_le ..
  have workers : ∑ idx, s.workerLeft idx ≤ 24 :=
    Finset.sum_le_card_nsmul Finset.univ s.workerLeft 6 fun idx _ => worker idx
  unfold signals
  omega

theorem weight_of_pipe
    (less : t.pipe.weight H submitQueueNum < s.pipe.weight H submitQueueNum) :
    t.weight H submitQueueNum < s.weight H submitQueueNum := by
  have bound := t.signals_lt
  unfold weight
  omega

/-- One worker's handshakes change. -/
theorem weight_of_worker (idx : SegIdx) (pipe : t.pipe = s.pipe) (rounds : t.threadLeft = s.threadLeft)
    (others : ∀ j ≠ idx, t.workerLeft j = s.workerLeft j) :
    t.weight H submitQueueNum + s.workerLeft idx = s.weight H submitQueueNum + t.workerLeft idx := by
  have workers := sum_one (Finset.mem_univ idx) (f := s.workerLeft) (g := t.workerLeft) others
  simp only [weight, signals, pipe, rounds]
  omega

theorem weight_lt_of_worker (idx : SegIdx) (pipe : t.pipe = s.pipe)
    (rounds : t.threadLeft = s.threadLeft) (others : ∀ j ≠ idx, t.workerLeft j = s.workerLeft j)
    (less : t.workerLeft idx < s.workerLeft idx) :
    t.weight H submitQueueNum < s.weight H submitQueueNum := by
  have same : t.weight H submitQueueNum + s.workerLeft idx =
    s.weight H submitQueueNum + t.workerLeft idx := weight_of_worker idx pipe rounds others
  omega

/-! ## Every step but a look makes the weight smaller -/

/-- All but where the threads look next, and what was noted. -/
structure Unmoved (turn : Pipeline.Turn) (s t : Joint) : Prop where
  pipe : Pipeline.Unmoved turn s.pipe t.pipe
  rounds : t.rounds = s.rounds
  queueEmpty : t.queueEmpty = s.queueEmpty
  waited : t.waited = s.waited
  answer : ∀ idx, turn ≠ .ssd idx → t.answer idx = s.answer idx

theorem weight_test (waits : s.waited idx = false) (up : s.queueEmpty idx = true) :
    weight H submitQueueNum { s with waited := Function.update s.waited idx (s.queueEmpty idx) } <
      s.weight H submitQueueNum := by
  refine weight_lt_of_worker idx rfl rfl (fun j other => ?_) ?_
  · simp only [workerLeft, Function.update_of_ne other]
  · simp [workerLeft, waits, up]

/-- What is written to `queue_empty` makes the weight smaller, unless it was there. -/
theorem weight_set {empty : Bool} (answer : s.answer idx = some empty)
    (new : empty = true → s.queueEmpty idx = false) :
    weight H submitQueueNum
      { s with
        queueEmpty := Function.update s.queueEmpty idx empty
        answer := Function.update s.answer idx none } < s.weight H submitQueueNum := by
  refine weight_lt_of_worker idx rfl rfl (fun j other => ?_) ?_
  · simp only [workerLeft, Function.update_of_ne other]
  · cases empty with
    | true => simp [workerLeft, answer, new rfl]
    | false =>
        by_cases up : s.queueEmpty idx = true
        · simp [workerLeft, answer, up]
        · simp [workerLeft, answer, up]

/-- What the ssd_worker finds is nothing done. -/
theorem weight_answer {answer : Option Bool} (before : s.answer idx ≠ some false)
    (after : answer ≠ some false) :
    weight H submitQueueNum { s with answer := Function.update s.answer idx answer } ≤
      s.weight H submitQueueNum := by
  have same : workerLeft { s with answer := Function.update s.answer idx answer } =
      s.workerLeft := by
    funext j
    by_cases here : j = idx
    · subst here
      simp only [workerLeft, Function.update_self, if_neg before, if_neg after]
    · simp only [workerLeft, Function.update_of_ne here]
  rw [weight, weight, signals, signals, same]
  exact Nat.le_refl _

/-- A worker moves on in its section. -/
theorem weight_worker (pc : Rounds.WorkerPc) {rounds : Rounds.State MIGRATE_THREAD_NUM}
    (worker : rounds.worker = Function.update s.rounds.worker idx pc)
    (thread : rounds.thread = s.rounds.thread) (flags : rounds.migration = s.rounds.migration)
    (less : pc.left < (s.rounds.worker idx).left) :
    weight H submitQueueNum { s with rounds := rounds } < s.weight H submitQueueNum := by
  refine weight_lt_of_worker idx rfl (funext fun u => ?_) (fun j other => ?_) ?_
  · simp only [threadLeft, thread, flags]
  · simp only [workerLeft, worker, Function.update_of_ne other]
  · simp only [workerLeft, worker, Function.update_self]
    omega

theorem weight_lock {rounds : Rounds.State MIGRATE_THREAD_NUM}
    (locked : Rounds.step s.rounds (.lock idx) = some rounds) :
    weight H submitQueueNum { s with rounds := rounds } < s.weight H submitQueueNum := by
  cases Rounds.step_cases locked with
  | lock idle =>
      refine weight_worker .locked rfl rfl rfl ?_
      rw [idle]
      decide

theorem weight_finish {rounds : Rounds.State MIGRATE_THREAD_NUM}
    (finished : Rounds.step s.rounds (.finish idx) = some rounds) :
    weight H submitQueueNum { s with rounds := rounds } < s.weight H submitQueueNum := by
  cases Rounds.step_cases finished with
  | finish migrating =>
      refine weight_worker .ended rfl rfl rfl ?_
      rw [migrating]
      decide

/-- A migrate thread moves on, but for its walk. -/
theorem weight_thread {thread : Fin MIGRATE_THREAD_NUM} {rounds : Rounds.State MIGRATE_THREAD_NUM}
    (moved : Rounds.step s.rounds (.thread thread) = some rounds) :
    weight H submitQueueNum { s with rounds := rounds } < s.weight H submitQueueNum := by
  have step := Rounds.threadStep_of moved
  have workers : workerLeft { s with rounds := rounds } = s.workerLeft := by
    funext j
    simp only [workerLeft, step.worker.1]
  have threads := sum_one (Finset.mem_univ thread) (f := s.threadLeft)
    (g := threadLeft { s with rounds := rounds }) fun other apart => by
      have aside := step.aside apart
      simp only [threadLeft, aside.thread, aside.migration]
  have less : threadLeft { s with rounds := rounds } thread < s.threadLeft thread := by
    cases step with
    | see at_ flag => simp [threadLeft, Rounds.State.setThread, Rounds.ThreadPc.left, at_, flag]
    | readIdx at_ | drain _ at_ | count _ at_ | reset at_ =>
        simp [threadLeft, Rounds.State.setThread, Rounds.ThreadPc.left, at_]
  simp only [weight, signals, workers]
  omega

/-- **Every step does something of what is left, or only looks.** -/
theorem Steady.weight_lt (steady : s.Steady P H submitQueueNum) {turn : Pipeline.Turn}
    (stepped : s.step submitQueueNum capacity turn = some t) :
    t.weight H submitQueueNum < s.weight H submitQueueNum ∨
      t.weight H submitQueueNum ≤ s.weight H submitQueueNum ∧ Unmoved turn s t := by
  cases step_cases stepped with
  | pipe plain moved =>
      rcases steady.pipe.weight_lt moved with less | looks
      · exact .inl (weight_of_pipe less)
      · refine .inr ⟨Nat.le_of_eq ?_, looks.unmoved, rfl, rfl, rfl, fun _ _ => rfl⟩
        have same : Pipeline.weight H submitQueueNum _ = s.pipe.weight H submitQueueNum :=
          looks.unmoved.weight
        exact congrArg (100 * · + s.signals) same
  | @test idx task full waits =>
      by_cases up : s.queueEmpty idx = true
      · exact .inl (weight_test waits up)
      · have same : Function.update s.waited idx (s.queueEmpty idx) = s.waited := by
          rw [Bool.eq_false_of_not_eq_true up, ← waits, Function.update_eq_self]
        rw [same]
        exact .inr ⟨Nat.le_refl _, .refl _ _, rfl, rfl, rfl, fun _ _ => rfl⟩
  | lock _ _ locked => exact .inl (weight_lock locked)
  | begin full _ _ moved =>
      refine .inl (weight_of_pipe ((steady.pipe.weight_lt moved).resolve_right fun looks => ?_))
      have poll := looks.polls
      rw [full] at poll
      cases poll
  | finish _ finished => exact .inl (weight_finish finished)
  | unlock migrating _ moved =>
      refine .inl (weight_of_pipe ((steady.pipe.weight_lt moved).resolve_right fun looks => ?_))
      have poll := looks.polls
      rw [migrating] at poll
      cases poll
  | @set idx empty answer =>
      by_cases new : empty = true → s.queueEmpty idx = false
      · exact .inl (weight_set answer new)
      · simp only [Classical.not_imp, Bool.not_eq_false] at new
        obtain ⟨rfl, up⟩ := new
        have same : Function.update s.queueEmpty idx true = s.queueEmpty := by
          rw [← up, Function.update_eq_self]
        rw [same]
        refine .inr ⟨weight_answer (by rw [answer]; nofun) nofun, .refl _ _, rfl, rfl, rfl, ?_⟩
        exact fun j other => Function.update_of_ne (fun here => other (congrArg _ here.symm)) ..
  | @found idx answer poll empty =>
      refine .inr ⟨weight_answer (by rw [answer]; nofun) nofun, .refl _ _, rfl, rfl, rfl, ?_⟩
      exact fun j other => Function.update_of_ne (fun here => other (congrArg _ here.symm)) ..
  | take _ _ moved =>
      refine .inl (weight_of_pipe ((steady.pipe.weight_lt moved).resolve_right fun looks => ?_))
      cases looks
  | thread _ moved => exact .inl (weight_thread moved)

end

/-! ## The thread that can go on -/

/-- The thread `turn` does something of what is left when it is tried for the `k + 1`st time, at the
latest. -/
inductive Helps (capacity submitQueueNum : Nat) (s : Joint) : Pipeline.Turn → Nat → Prop
  | post {i k : Nat} (helps : Pipeline.Helps capacity submitQueueNum s.pipe (.post i) k) :
      Helps capacity submitQueueNum s (.post i) k
  | scheduler {k : Nat} (helps : Pipeline.Helps capacity submitQueueNum s.pipe .scheduler k) :
      Helps capacity submitQueueNum s .scheduler k
  | take {idx : SegIdx} (poll : (s.pipe.station idx).nvm = .poll)
      (waiting : (s.pipe.station idx).queue ≠ []) : Helps capacity submitQueueNum s (.nvm idx) 0
  | turn {idx : SegIdx} (poll : (s.pipe.station idx).nvm = .poll)
      (waiting : (s.pipe.station idx).bufferQueue ≠ [] ∨ (s.pipe.station idx).nvmQueue ≠ []) :
      Helps capacity submitQueueNum s (.nvm idx) 1
  | deed {idx : SegIdx} {task : IoTask} {deeds : List Deed}
      (doing : (s.pipe.station idx).nvm = .doing task deeds)
      (room : (s.pipe.station idx).ssdQueue.length < capacity) :
      Helps capacity submitQueueNum s (.nvm idx) 0
  | test {idx : SegIdx} {task : IoTask} (full : (s.pipe.station idx).nvm = .full task)
      (waits : s.waited idx = false) (up : s.queueEmpty idx = true) :
      Helps capacity submitQueueNum s (.nvm idx) 0
  | lock {idx : SegIdx} {task : IoTask} (full : (s.pipe.station idx).nvm = .full task)
      (waited : s.waited idx = true) (idle : s.rounds.worker idx = .idle)
      (free : s.rounds.mutex = false) : Helps capacity submitQueueNum s (.nvm idx) 0
  | begin {idx : SegIdx} (locked : s.rounds.worker idx = .locked) :
      Helps capacity submitQueueNum s (.nvm idx) 0
  | finish {idx : SegIdx} (migrating : s.rounds.worker idx = .migrating)
      (counted : MIGRATE_THREAD_NUM ≤ s.rounds.completedMigrateThreadNum idx) :
      Helps capacity submitQueueNum s (.nvm idx) 0
  | unlock {idx : SegIdx} (ended : s.rounds.worker idx = .ended) :
      Helps capacity submitQueueNum s (.nvm idx) 0
  | thread {idx : SegIdx} {t : Fin MIGRATE_THREAD_NUM}
      (migrating : s.rounds.worker idx = .migrating) (working : Rounds.Working idx s.rounds t) :
      Helps capacity submitQueueNum s (.migrate t) 0
  /-- It lowers its flag. -/
  | lower {t : Fin MIGRATE_THREAD_NUM} (at_ : s.rounds.thread t = .reset) :
      Helps capacity submitQueueNum s (.migrate t) 0
  | ssd {idx : SegIdx} (answer : s.answer idx = none)
      (work : (s.pipe.station idx).ssd ≠ .poll ∨ (s.pipe.station idx).ssdQueue ≠ []) :
      Helps capacity submitQueueNum s (.ssd idx) 0
  /-- It writes `queue_empty` before. -/
  | ssdSet {idx : SegIdx}
      (work : (s.pipe.station idx).ssd ≠ .poll ∨ (s.pipe.station idx).ssdQueue ≠ []) :
      Helps capacity submitQueueNum s (.ssd idx) 1
  /-- It raises `queue_empty`. -/
  | raise {idx : SegIdx} (answer : s.answer idx = some true) (down : s.queueEmpty idx = false) :
      Helps capacity submitQueueNum s (.ssd idx) 0
  | found {idx : SegIdx} (poll : (s.pipe.station idx).ssd = .poll)
      (empty : (s.pipe.station idx).ssdQueue = []) (down : s.queueEmpty idx = false) :
      Helps capacity submitQueueNum s (.ssd idx) 1

section

variable {P H submitQueueNum capacity : Nat} {s t : Joint} {idx : SegIdx}

/-- While other threads only look, the helper goes on helping. -/
theorem Helps.keep {a b : Pipeline.Turn} {k : Nat} (helps : Helps capacity submitQueueNum s a k)
    (other : b ≠ a) (unmoved : Unmoved b s t) : Helps capacity submitQueueNum t a k := by
  obtain ⟨pipe, rounds, queueEmpty, waited, answer⟩ := unmoved
  cases helps with
  | post helps => exact .post (helps.keep other pipe)
  | scheduler helps => exact .scheduler (helps.keep other pipe)
  | @take idx poll waiting =>
      have same := pipe.other idx other
      exact .take (same ▸ poll) (same ▸ waiting)
  | @turn idx poll waiting =>
      have same := pipe.other idx other
      exact .turn (same ▸ poll) (same ▸ waiting)
  | @deed idx _ _ doing room =>
      have same := pipe.other idx other
      exact .deed (same ▸ doing) (same ▸ room)
  | @test idx _ full waits up =>
      have same := pipe.other idx other
      exact .test (same ▸ full) (waited ▸ waits) (queueEmpty ▸ up)
  | @lock idx _ full there idle free =>
      have same := pipe.other idx other
      exact .lock (same ▸ full) (waited ▸ there) (rounds ▸ idle) (rounds ▸ free)
  | begin locked => exact .begin (rounds ▸ locked)
  | finish migrating counted => exact .finish (rounds ▸ migrating) (rounds ▸ counted)
  | unlock ended => exact .unlock (rounds ▸ ended)
  | thread migrating working => exact .thread (rounds ▸ migrating) (rounds ▸ working)
  | lower at_ => exact .lower (rounds ▸ at_)
  | @ssd idx none_ work =>
      obtain ⟨odd, same⟩ := pipe.station idx
      refine .ssd ((answer idx other).trans none_) ?_
      rw [same]
      exact work
  | @ssdSet idx work =>
      obtain ⟨odd, same⟩ := pipe.station idx
      refine .ssdSet ?_
      rw [same]
      exact work
  | @raise idx found down => exact .raise ((answer idx other).trans found) (queueEmpty ▸ down)
  | @found idx poll empty down =>
      obtain ⟨odd, same⟩ := pipe.station idx
      refine .found ?_ ?_ (queueEmpty ▸ down)
      · rw [same]
        exact poll
      · rw [same]
        exact empty

/-! ## The helper goes on -/

/-- What the turn of a helper comes to: the weight is less, or it has come closer.  Or an nvm_worker
searches for ever. -/
def GoesOn (H submitQueueNum capacity : Nat) (s : Joint) (turn : Pipeline.Turn) (k : Nat) : Prop :=
  (∃ idx, s.pipe.Spins idx) ∨ ∃ t, s.step submitQueueNum capacity turn = some t ∧
    (t.weight H submitQueueNum < s.weight H submitQueueNum ∨
      t.weight H submitQueueNum ≤ s.weight H submitQueueNum ∧
        ∃ j < k, Helps capacity submitQueueNum t turn j)

theorem GoesOn.lighter {turn : Pipeline.Turn} {k : Nat}
    (stepped : s.step submitQueueNum capacity turn = some t)
    (less : t.weight H submitQueueNum < s.weight H submitQueueNum) :
    s.GoesOn H submitQueueNum capacity turn k := .inr ⟨t, stepped, .inl less⟩

/-- A thread goes on in the pipeline, whatever it does for the handshakes with it. -/
theorem GoesOn.of_pipe {turn : Pipeline.Turn} {k : Nat}
    (goesOn : s.pipe.GoesOn H submitQueueNum capacity turn 0)
    (steps : ∀ pipe, s.pipe.step submitQueueNum capacity turn = some pipe →
      ∃ t, s.step submitQueueNum capacity turn = some t ∧ t.pipe = pipe) :
    s.GoesOn H submitQueueNum capacity turn k := by
  rcases goesOn with spins | ⟨pipe, moved, less | ⟨-, j, below, -⟩⟩
  · exact .inl spins
  · obtain ⟨t, stepped, rfl⟩ := steps pipe moved
    exact .lighter stepped (weight_of_pipe less)
  · exact absurd below (Nat.not_lt_zero j)

/-- A thread out of the handshakes goes on as in the pipeline. -/
theorem GoesOn.of_plain {turn : Pipeline.Turn} {k : Nat} (plain : s.Plain turn)
    (goesOn : s.pipe.GoesOn H submitQueueNum capacity turn k)
    (closer : ∀ pipe, ∀ j < k, Pipeline.Helps capacity submitQueueNum pipe turn j →
      Helps capacity submitQueueNum { s with pipe := pipe } turn j) :
    s.GoesOn H submitQueueNum capacity turn k := by
  have stepped (pipe : Pipeline) (moved : s.pipe.step submitQueueNum capacity turn = some pipe) :
      s.step submitQueueNum capacity turn = some { s with pipe := pipe } := by
    rw [step_plain plain, inPipe, moved, Option.map_some]
  rcases goesOn with spins | ⟨pipe, moved, less | ⟨light, j, below, helps⟩⟩
  · exact .inl spins
  · exact .lighter (stepped pipe moved) (weight_of_pipe less)
  · refine .inr ⟨_, stepped pipe moved, .inr ⟨?_, j, below, closer pipe j below helps⟩⟩
    exact Nat.add_le_add_right (Nat.mul_le_mul_left 100 light) s.signals

theorem Plain.poll (poll : (s.pipe.station idx).nvm = .poll) : s.Plain (.nvm idx) := by
  simp only [Plain, poll]
  exact ⟨nofun, nofun⟩

theorem Plain.doing {task : IoTask} {deeds : List Deed}
    (doing : (s.pipe.station idx).nvm = .doing task deeds) : s.Plain (.nvm idx) := by
  simp only [Plain, doing]
  exact ⟨nofun, nofun⟩

theorem Steady.takes (steady : s.Steady P H submitQueueNum) {k : Nat}
    (poll : (s.pipe.station idx).nvm = .poll) (waiting : (s.pipe.station idx).queue ≠ []) :
    s.GoesOn H submitQueueNum capacity (.nvm idx) k := by
  refine .of_pipe (steady.pipe.take poll waiting) fun pipe moved => ⟨{ s with pipe := pipe }, ?_, rfl⟩
  rw [step_plain (.poll poll), inPipe, moved, Option.map_some]

theorem Steady.migrating (steady : s.Steady P H submitQueueNum)
    (round : s.rounds.worker idx = .migrating ∨ s.rounds.worker idx = .ended) :
    ∃ task pc, (s.pipe.station idx).nvm = .migrating task ∧ s.pipe.migration = some (idx, pc) := by
  obtain ⟨pc, running⟩ := (steady.linked.running idx).1 round
  obtain ⟨task, migrating⟩ := (steady.pipe.indexes.owner idx).2 ⟨pc, running⟩
  exact ⟨task, pc, migrating, running⟩

/-- Who is before the begin of its round keeps all others from being in a migration. -/
theorem Steady.not_running (steady : s.Steady P H submitQueueNum)
    (locked : s.rounds.worker idx = .locked) : s.pipe.migration = none := by
  cases running : s.pipe.migration with
  | none => rfl
  | some here =>
      obtain ⟨w, pc⟩ := here
      have round := (steady.linked.running w).2 ⟨pc, running⟩
      have same : w = idx := by
        refine steady.rounds.one w idx (fun idle => ?_) (by rw [locked]; nofun)
        rcases round with at_ | at_ <;> rw [idle] at at_ <;> cases at_
      rw [same, locked] at round
      rcases round with at_ | at_ <;> cases at_

/-- The worker that has the mutex begins its migration. -/
theorem Steady.begins (room : 0 < capacity) (steady : s.Steady P H submitQueueNum) {k : Nat}
    (locked : s.rounds.worker idx = .locked) :
    s.GoesOn H submitQueueNum capacity (.nvm idx) k := by
  obtain ⟨⟨task, full⟩, waited⟩ := steady.linked.locked idx locked
  have free := steady.not_running locked
  refine .of_pipe ((Pipeline.Helps.full full free).progress room steady.pipe) fun pipe moved => ?_
  have begun : Rounds.step s.rounds (.begin idx) =
      some ((s.rounds.segmentMigrationBegin idx).setWorker idx .migrating) := if_pos locked
  refine ⟨{ s with
    pipe := pipe
    rounds := (s.rounds.segmentMigrationBegin idx).setWorker idx .migrating
    waited := Function.update s.waited idx false }, ?_, rfl⟩
  simp only [Joint.step, nvmStep, full, fullStep, waited, locked, begun, moved, Option.bind_some,
    Option.map_some, if_true]

/-- The worker whose migration is over goes on with its write: all migrate threads are at their end. -/
theorem Steady.unlocks (room : 0 < capacity) (steady : s.Steady P H submitQueueNum) {k : Nat}
    (ended : s.rounds.worker idx = .ended) :
    s.GoesOn H submitQueueNum capacity (.nvm idx) k := by
  obtain ⟨task, pc, migrating, running⟩ := steady.migrating (.inr ended)
  have done (t : Fin MIGRATE_THREAD_NUM) : pc t = .done := by
    refine steady.linked.done idx pc t running (.inl ?_)
    rw [steady.rounds.ended idx ended t]
    nofun
  have goesOn := (Pipeline.Helps.migrated migrating running done).progress room steady.pipe
  refine .of_pipe goesOn fun pipe moved => ?_
  have unlocked : Rounds.step s.rounds (.unlock idx) =
      some { s.rounds.setWorker idx .idle with mutex := false } := if_pos ended
  refine ⟨{ s with
    pipe := pipe
    rounds := { s.rounds.setWorker idx .idle with mutex := false } }, ?_, rfl⟩
  simp only [Joint.step, nvmStep, migrating, migratingStep, ended, unlocked, moved, Option.bind_some,
    Option.map_some]

theorem step_round {t : Fin MIGRATE_THREAD_NUM}
    (walked : ∀ w, s.rounds.thread t = .drain w → s.walked t = true) :
    s.step submitQueueNum capacity (.migrate t) = s.inRounds (.thread t) := by
  simp only [step, migrateStep]
  cases at_ : s.rounds.thread t with
  | drain w => simp only [walked w at_, if_true]
  | see | readIdx | count | reset => rfl

theorem GoesOn.of_round {k : Nat} {t : Fin MIGRATE_THREAD_NUM}
    (walked : ∀ w, s.rounds.thread t = .drain w → s.walked t = true)
    (enabled : ∃ rounds, s.rounds.threadStep t = some rounds) :
    s.GoesOn H submitQueueNum capacity (.migrate t) k := by
  obtain ⟨rounds, moved⟩ := enabled
  have round : Rounds.step s.rounds (.thread t) = some rounds := moved
  refine .lighter ?_ (weight_thread round)
  rw [step_round walked, inRounds, round, Option.map_some]

/-- A migrate thread in the round goes on: it walks, or takes its next step of the handshake. -/
theorem Steady.thread_goesOn (room : 0 < capacity) (steady : s.Steady P H submitQueueNum) {k : Nat}
    {t : Fin MIGRATE_THREAD_NUM} (working : Rounds.Working idx s.rounds t) :
    s.GoesOn H submitQueueNum capacity (.migrate t) k := by
  by_cases walks : ∃ w, s.rounds.thread t = .drain w ∧ s.walked t = false
  · obtain ⟨w, at_, walks⟩ := walks
    obtain ⟨pc, running⟩ := steady.drains at_
    have busy : pc t ≠ .done := by
      intro done
      rw [Joint.walked, running] at walks
      exact of_decide_eq_false walks done
    have helps : Pipeline.Helps capacity submitQueueNum s.pipe (.migrate t) 0 := .walk running busy
    refine .of_pipe (helps.progress room steady.pipe) fun pipe moved => ?_
    refine ⟨{ s with pipe := pipe }, ?_, rfl⟩
    have plain : s.Plain (.migrate t) := ⟨⟨w, at_⟩, walks⟩
    rw [step_plain plain, inPipe, moved, Option.map_some]
  · simp only [not_exists, not_and, Bool.not_eq_false] at walks
    exact .of_round walks working.enabled

/-- An ssd_worker that has nothing to write to `queue_empty` takes its next task, or goes on with it. -/
theorem Steady.ssd_goesOn (room : 0 < capacity) (steady : s.Steady P H submitQueueNum) {k : Nat}
    (answer : s.answer idx = none)
    (work : (s.pipe.station idx).ssd ≠ .poll ∨ (s.pipe.station idx).ssdQueue ≠ []) :
    s.GoesOn H submitQueueNum capacity (.ssd idx) k := by
  by_cases poll : (s.pipe.station idx).ssd = .poll
  · have waiting := work.resolve_left fun busy => busy poll
    have helps : Pipeline.Helps capacity submitQueueNum s.pipe (.ssd idx) 0 := .ssdTake poll waiting
    refine .of_pipe (helps.progress room steady.pipe) fun pipe moved => ?_
    refine ⟨{ s with pipe := pipe, answer := Function.update s.answer idx (some false) }, ?_, rfl⟩
    simp only [Joint.step, ssdStep, answer, poll, moved, if_true]
  · have helps : Pipeline.Helps capacity submitQueueNum s.pipe (.ssd idx) 0 := .ssdWork poll
    refine .of_pipe (helps.progress room steady.pipe) fun pipe moved => ?_
    refine ⟨{ s with pipe := pipe }, ?_, rfl⟩
    have plain : s.Plain (.ssd idx) := ⟨answer, poll⟩
    rw [step_plain plain, inPipe, moved, Option.map_some]

/-! The steps of the handshakes. -/

theorem test_stepped {task : IoTask} (full : (s.pipe.station idx).nvm = .full task)
    (waits : s.waited idx = false) : s.step submitQueueNum capacity (.nvm idx) =
      some { s with waited := Function.update s.waited idx (s.queueEmpty idx) } := by
  simp only [step, nvmStep, full, fullStep, waits, Bool.false_eq_true, if_false]

theorem lock_stepped {task : IoTask} (full : (s.pipe.station idx).nvm = .full task)
    (waited : s.waited idx = true) (idle : s.rounds.worker idx = .idle) :
    s.step submitQueueNum capacity (.nvm idx) = s.inRounds (.lock idx) := by
  simp only [step, nvmStep, full, fullStep, waited, idle, if_true]

theorem finish_stepped {task : IoTask} (there : (s.pipe.station idx).nvm = .migrating task)
    (migrating : s.rounds.worker idx = .migrating) :
    s.step submitQueueNum capacity (.nvm idx) = s.inRounds (.finish idx) := by
  simp only [step, nvmStep, there, migratingStep, migrating]

theorem found_stepped (answer : s.answer idx = none) (poll : (s.pipe.station idx).ssd = .poll)
    (empty : (s.pipe.station idx).ssdQueue = []) : s.step submitQueueNum capacity (.ssd idx) =
      some { s with answer := Function.update s.answer idx (some true) } := by
  have blocked : s.pipe.step submitQueueNum capacity (.ssd idx) = none := by
    simp only [Pipeline.step, Pipeline.ssdStep, poll, empty]
  simp only [step, ssdStep, answer, poll, blocked, if_true]

theorem set_stepped {empty : Bool} (answer : s.answer idx = some empty) :
    s.step submitQueueNum capacity (.ssd idx) = some { s with
      queueEmpty := Function.update s.queueEmpty idx empty
      answer := Function.update s.answer idx none } := by
  simp only [step, ssdStep, answer]

/-- **The helper helps.** -/
theorem Helps.progress (room : 0 < capacity) (steady : s.Steady P H submitQueueNum) {turn : Pipeline.Turn}
    {k : Nat} (helps : Helps capacity submitQueueNum s turn k) :
    s.GoesOn H submitQueueNum capacity turn k := by
  cases helps with
  | post helps => exact .of_plain trivial (helps.progress room steady.pipe) fun _ _ _ helps => .post helps
  | scheduler helps =>
      exact .of_plain trivial (helps.progress room steady.pipe) fun _ _ _ helps => .scheduler helps
  | take poll waiting => exact steady.takes poll waiting
  | @turn idx poll waiting =>
      have plain : s.Plain (.nvm idx) := .poll poll
      by_cases here : (s.pipe.station idx).queue = []
      · obtain ⟨moved, next⟩ :=
          @Pipeline.turns_over submitQueueNum capacity s.pipe idx poll here waiting
        have looks : Pipeline.Looks submitQueueNum s.pipe (.nvm idx) _ :=
          .turn poll (!(s.pipe.station idx).odd)
        have stepped := (step_plain plain).trans (congrArg (Option.map _) moved)
        refine .inr ⟨_, stepped, .inr ⟨Nat.le_of_eq ?_, 0, Nat.one_pos, .take looks.poll next⟩⟩
        exact congrArg (100 * · + s.signals) looks.unmoved.weight
      · exact steady.takes poll here
  | deed doing free =>
      exact .of_plain (.doing doing) ((Pipeline.Helps.deed doing free).progress room steady.pipe)
        fun _ j below => absurd below (Nat.not_lt_zero j)
  | test full waits up => exact .lighter (test_stepped full waits) (weight_test waits up)
  | @lock idx task full waited idle free =>
      have locked : Rounds.step s.rounds (.lock idx) =
          some { s.rounds.setWorker idx .locked with mutex := true } := if_pos ⟨idle, free⟩
      refine .lighter ?_ (weight_lock locked)
      rw [lock_stepped full waited idle, inRounds, locked, Option.map_some]
  | begin locked => exact steady.begins room locked
  | @finish idx migrating counted =>
      obtain ⟨task, pc, there, -⟩ := steady.migrating (.inl migrating)
      have finished : Rounds.step s.rounds (.finish idx) =
          some ((s.rounds.segmentMigrationEnd idx).setWorker idx .ended) :=
        if_pos ⟨migrating, counted⟩
      refine .lighter ?_ (weight_finish finished)
      rw [finish_stepped there migrating, inRounds, finished, Option.map_some]
  | unlock ended => exact steady.unlocks room ended
  | thread _ working => exact steady.thread_goesOn room working
  | @lower thread at_ =>
      exact .of_round (fun w there => nomatch at_.symm.trans there) ⟨_, Rounds.threadStep_reset at_⟩
  | ssd answer work => exact steady.ssd_goesOn room answer work
  | @ssdSet idx work =>
      cases answer : s.answer idx with
      | none => exact steady.ssd_goesOn room answer work
      | some empty =>
          have stepped := @set_stepped submitQueueNum capacity s idx empty answer
          refine .inr ⟨_, stepped, (steady.weight_lt stepped).imp_right fun ⟨light, _⟩ => ?_⟩
          exact ⟨light, 0, Nat.one_pos, .ssd (Function.update_self ..) work⟩
  | raise answer down => exact .lighter (set_stepped answer) (weight_set answer fun _ => down)
  | @found idx poll empty down =>
      cases answer : s.answer idx with
      | none =>
          refine .inr ⟨_, found_stepped answer poll empty, .inr ⟨?_, 0, Nat.one_pos, ?_⟩⟩
          · exact weight_answer (by rw [answer]; nofun) nofun
          · exact .raise (Function.update_self ..) down
      | some found => exact .lighter (set_stepped answer) (weight_set answer fun _ => down)

end

end Joint

end Mixdk
