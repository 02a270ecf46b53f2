/-
# Handshake.Startup -- mix_rebuild and the waiting nvm_workers

Each nvm_worker starts by waiting for `rebuild` under its own mutex, and `mix_rebuild`
sets the flag, wakes whoever waits, and then waits for the four rebuilt segments.  The
flag is set and the condition signalled without the mutexes, so the broadcast can come
after a worker has found the flag down and before it blocks.  That worker is not woken.

`State` is the five threads; a step is one access to what they share.  Broadcasts that
find no worker in between (`BroadcastGuard`) leave nobody blocked (`none_blocked`); any
other broadcast can, by the worker's next step (`blocked_of_between`), and then
`mix_rebuild` never returns (`blocked_forever`).
-/
import Mixdk.Core.Scheduler
import Mixdk.Lib.Transition
import Mathlib.Data.Fintype.Card

namespace Mixdk.Startup

open Transition

set_option autoImplicit false

/-- Where an nvm_worker is. -/
inductive WorkerPc
  /-- Before `pthread_mutex_lock(&mutex[idx])`. -/
  | lock
  /-- Before the test of `while(!rebuild)`. -/
  | test
  /-- It found the flag down; before `pthread_cond_wait` releases the mutex and blocks. -/
  | wait
  | blocked
  /-- Woken in `pthread_cond_wait`, before it has the mutex again. -/
  | woken
  /-- Before `mix_buffer_rebuild`. -/
  | rebuild
  /-- Before `rebuild_num++`. -/
  | count
  /-- Before `pthread_mutex_unlock(&mutex[idx])`. -/
  | unlock
  /-- In the loop over its queues. -/
  | running
deriving DecidableEq

/-- Where `mix_rebuild` is. -/
inductive MainPc
  /-- Before `rebuild = true`. -/
  | setFlag
  /-- Before `pthread_cond_broadcast(&rebuild_cond)`. -/
  | broadcast
  /-- In `while(rebuild_num < SEGMENT_NUM)`. -/
  | waiting
  | returned
deriving DecidableEq

structure State where
  rebuild : Bool
  rebuildNum : Nat
  /-- `mutex[idx]` is held. -/
  mutex : SegIdx → Bool
  main : MainPc
  worker : SegIdx → WorkerPc

/-- The threads are created; `mix_rebuild` has cleared the segments. -/
def init : State :=
  { rebuild := false, rebuildNum := 0, mutex := fun _ => false, main := .setFlag,
    worker := fun _ => .lock }

inductive Thread
  | main
  | worker (w : SegIdx)
deriving DecidableEq

namespace State

def setWorker (s : State) (w : SegIdx) (pc : WorkerPc) : State :=
  { s with worker := Function.update s.worker w pc }

def setMutex (s : State) (w : SegIdx) (held : Bool) : State :=
  { s with mutex := Function.update s.mutex w held }

/-- `pthread_cond_broadcast`: whoever is blocked is woken. -/
def broadcast (s : State) : State :=
  { s with
    main := .waiting
    worker := fun w => if s.worker w = .blocked then .woken else s.worker w }

def mainStep (s : State) : Option State :=
  match s.main with
  | .setFlag => some { s with rebuild := true, main := .broadcast }
  | .broadcast => some s.broadcast
  | .waiting => if s.rebuildNum < SEGMENT_NUM then none else some { s with main := .returned }
  | .returned => none

/-- The next step of a worker; none while it is blocked or its mutex is held. -/
def workerStep (s : State) (w : SegIdx) : Option State :=
  match s.worker w with
  | .lock => if s.mutex w then none else some ((s.setMutex w true).setWorker w .test)
  | .test => some (s.setWorker w (if s.rebuild then .rebuild else .wait))
  | .wait => some ((s.setMutex w false).setWorker w .blocked)
  | .blocked => none
  | .woken => if s.mutex w then none else some ((s.setMutex w true).setWorker w .test)
  | .rebuild => some (s.setWorker w .count)
  | .count => some { s.setWorker w .unlock with rebuildNum := s.rebuildNum + 1 }
  | .unlock => some ((s.setMutex w false).setWorker w .running)
  | .running => none

/-- `mix_rebuild` has done its broadcast, and a worker is blocked. -/
def Hangs (s : State) : Prop :=
  (s.main = .waiting ∨ s.main = .returned) ∧ ∃ w, s.worker w = .blocked

end State

def step (s : State) : Thread → Option State
  | .main => s.mainStep
  | .worker w => s.workerStep w

/-- No worker is between its test of the flag and its wait when the condition is signalled. -/
def BroadcastGuard (s : State) : Thread → Prop
  | .main => s.main = .broadcast → ∀ w, s.worker w ≠ .wait
  | .worker _ => True

section

variable {s t : State} {w v : SegIdx}

theorem setWorker_of_ne (other : v ≠ w) (pc : WorkerPc) :
    (s.setWorker w pc).worker v = s.worker v :=
  Function.update_of_ne other ..

/-- The worker that moves leaves the others where they are, and the flag and `mix_rebuild`. -/
theorem workerStep_frame (stepped : s.workerStep w = some t) :
    t.rebuild = s.rebuild ∧ t.main = s.main ∧ ∀ v ≠ w, t.worker v = s.worker v := by
  unfold State.workerStep at stepped
  split at stepped
  case h_1 | h_5 =>
    split at stepped
    · cases stepped
    · cases stepped
      exact ⟨rfl, rfl, fun v other => setWorker_of_ne other _⟩
  case h_4 | h_9 => cases stepped
  all_goals
    cases stepped
    exact ⟨rfl, rfl, fun v other => setWorker_of_ne other _⟩

/-- A worker goes to its wait from a test that found the flag down, and blocks from there. -/
theorem workerStep_cases (stepped : s.workerStep w = some t) :
    (t.worker w = .wait → s.worker w = .test ∧ s.rebuild = false) ∧
      (t.worker w = .blocked → s.worker w = .wait) := by
  unfold State.workerStep at stepped
  split at stepped
  case h_1 | h_5 =>
    split at stepped
    · cases stepped
    · cases stepped
      simp [State.setWorker]
  case h_2 at_ =>
    cases stepped
    cases flag : s.rebuild <;> simp [State.setWorker, at_]
  case h_3 at_ =>
    cases stepped
    simp [State.setWorker, at_]
  case h_4 | h_9 => cases stepped
  all_goals
    cases stepped
    simp [State.setWorker]

/-! ## Guarded runs -/

/-- The flag is up once `mix_rebuild` has set it, and nobody is on the way to a wait that the
broadcast has missed. -/
structure Awake (s : State) : Prop where
  flag : s.main ≠ .setFlag → s.rebuild = true
  free : s.main = .waiting ∨ s.main = .returned → ∀ w, s.worker w ≠ .wait ∧ s.worker w ≠ .blocked

theorem awake_init : Awake init where
  flag := fun set => absurd rfl set
  free := by
    rintro (past | past) <;> cases past

theorem Awake.mainStep (awake : Awake s) (guarded : BroadcastGuard s .main)
    (stepped : s.mainStep = some t) : Awake t := by
  unfold State.mainStep at stepped
  split at stepped
  case h_1 =>
    cases stepped
    refine ⟨fun _ => rfl, ?_⟩
    rintro (past | past) <;> cases past
  case h_2 at_ =>
    cases stepped
    refine ⟨fun _ => awake.flag (by rw [at_]; decide), fun _ w => ?_⟩
    have outside := guarded at_ w
    show (if s.worker w = .blocked then WorkerPc.woken else s.worker w) ≠ .wait ∧
      (if s.worker w = .blocked then WorkerPc.woken else s.worker w) ≠ .blocked
    by_cases blocked : s.worker w = .blocked
    · rw [if_pos blocked]
      decide
    · rw [if_neg blocked]
      exact ⟨outside, blocked⟩
  case h_3 at_ =>
    split at stepped
    · cases stepped
    · cases stepped
      exact ⟨fun _ => awake.flag (by rw [at_]; decide), fun _ => awake.free (.inl at_)⟩
  case h_4 => cases stepped

theorem Awake.workerStep (awake : Awake s) (stepped : s.workerStep w = some t) : Awake t := by
  obtain ⟨flag, main, others⟩ := workerStep_frame stepped
  obtain ⟨toWait, toBlocked⟩ := workerStep_cases stepped
  refine ⟨by rw [flag, main]; exact awake.flag, ?_⟩
  rw [main]
  intro past v
  have before := awake.free past
  have up : s.rebuild = true := by
    apply awake.flag
    rcases past with at_ | at_ <;> rw [at_] <;> decide
  by_cases mine : v = w
  · subst mine
    constructor
    · intro waits
      have down := (toWait waits).2
      rw [up] at down
      cases down
    · intro blocks
      exact (before v).1 (toBlocked blocks)
  · rw [others v mine]
    exact before v

/-- **When every broadcast finds nobody between test and wait, nobody is blocked after it.** -/
theorem none_blocked {threads : List Thread} (run : Run step BroadcastGuard init threads s) :
    ¬ s.Hangs := by
  have awake := run.invariant (I := Awake) (fun s thread t awake guarded stepped => by
    cases thread with
    | main => exact awake.mainStep guarded stepped
    | worker w => exact awake.workerStep stepped) awake_init
  rintro ⟨past, w, blocked⟩
  exact (awake.free past w).2 blocked

/-! ## Other broadcasts -/

/-- A broadcast between a worker's test and its wait leaves the worker blocked. -/
theorem blocked_of_between (at_ : s.main = .broadcast) (between : s.worker w = .wait) :
    ∃ t, exec step s [.main, .worker w] = some t ∧ t.Hangs := by
  have first : step s .main = some s.broadcast := by
    simp only [step, State.mainStep, at_]
  have still : s.broadcast.worker w = .wait := by
    simp [State.broadcast, between]
  have second : step s.broadcast (.worker w) =
      some ((s.broadcast.setMutex w false).setWorker w .blocked) := by
    simp only [step, State.workerStep, still]
  have ends : ((s.broadcast.setMutex w false).setWorker w .blocked).Hangs :=
    ⟨.inl rfl, w, Function.update_self ..⟩
  exact ⟨_, exec_cons_eq_some.2 ⟨_, first, exec_cons_eq_some.2 ⟨_, second, rfl⟩⟩, ends⟩

/-! ## A blocked worker stays blocked -/

/-- The worker has counted its segment. -/
def WorkerPc.counted : WorkerPc → Bool
  | .unlock | .running => true
  | _ => false

/-- `rebuild_num` counts the workers, and `mix_rebuild` has waited for it. -/
structure Tallied (s : State) : Prop where
  count : s.rebuildNum = (Finset.univ.filter fun w => (s.worker w).counted = true).card
  returned : s.main = .returned → SEGMENT_NUM ≤ s.rebuildNum

theorem tallied_init : Tallied init := ⟨rfl, nofun⟩

/-- A step that counts nobody. -/
theorem Tallied.keep (tallied : Tallied s) (count : t.rebuildNum = s.rebuildNum)
    (same : ∀ v, (t.worker v).counted = (s.worker v).counted)
    (returned : t.main = .returned → SEGMENT_NUM ≤ s.rebuildNum) : Tallied t where
  count := by
    simp only [count, same]
    exact tallied.count
  returned := fun back => count ▸ returned back

theorem counted_setWorker {pc : WorkerPc} (same : pc.counted = (s.worker w).counted) (v : SegIdx) :
    ((s.setWorker w pc).worker v).counted = (s.worker v).counted := by
  by_cases mine : v = w
  · subst mine
    simp [State.setWorker, same]
  · rw [setWorker_of_ne mine]

theorem Tallied.mainStep (tallied : Tallied s) (stepped : s.mainStep = some t) : Tallied t := by
  unfold State.mainStep at stepped
  split at stepped
  case h_1 =>
    cases stepped
    exact tallied.keep rfl (fun _ => rfl) nofun
  case h_2 =>
    cases stepped
    refine tallied.keep rfl (fun v => ?_) nofun
    show (if s.worker v = .blocked then WorkerPc.woken else s.worker v).counted = _
    split
    · rename_i blocked
      rw [blocked]
      rfl
    · rfl
  case h_3 =>
    split at stepped
    · cases stepped
    · rename_i all
      cases stepped
      exact tallied.keep rfl (fun _ => rfl) fun _ => Nat.le_of_not_lt all
  case h_4 => cases stepped

theorem Tallied.workerStep (tallied : Tallied s) (stepped : s.workerStep w = some t) :
    Tallied t := by
  unfold State.workerStep at stepped
  split at stepped
  case h_1 at_ | h_5 at_ =>
    split at stepped
    · cases stepped
    · cases stepped
      refine tallied.keep rfl (counted_setWorker (s := s.setMutex w true) ?_) tallied.returned
      show _ = (s.worker w).counted
      rw [at_]
      rfl
  case h_2 at_ =>
    cases stepped
    refine tallied.keep rfl (counted_setWorker ?_) tallied.returned
    rw [at_]
    split <;> rfl
  case h_3 at_ | h_8 at_ =>
    cases stepped
    refine tallied.keep rfl (counted_setWorker (s := s.setMutex w false) ?_) tallied.returned
    show _ = (s.worker w).counted
    rw [at_]
    rfl
  case h_6 at_ =>
    cases stepped
    refine tallied.keep rfl (counted_setWorker ?_) tallied.returned
    rw [at_]
    rfl
  case h_7 at_ =>
    cases stepped
    have fresh : w ∉ Finset.univ.filter fun v => (s.worker v).counted = true := by
      intro member
      have there := (Finset.mem_filter.1 member).2
      rw [at_] at there
      cases there
    have more : (Finset.univ.filter fun v => ((s.setWorker w .unlock).worker v).counted = true) =
        insert w (Finset.univ.filter fun v => (s.worker v).counted = true) := by
      ext v
      by_cases mine : v = w
      · subst mine
        have now : (s.setWorker v .unlock).worker v = .unlock := Function.update_self ..
        rw [Finset.mem_filter, now]
        simp [WorkerPc.counted]
      · simp [setWorker_of_ne mine, mine]
    refine ⟨?_, fun back => Nat.le_succ_of_le (tallied.returned back)⟩
    show s.rebuildNum + 1 = (Finset.univ.filter fun v =>
      ((s.setWorker w .unlock).worker v).counted = true).card
    rw [more, Finset.card_insert_of_notMem fresh, ← tallied.count]
  case h_4 | h_9 => cases stepped

theorem tallied_of_exec {threads : List Thread} (reached : exec step init threads = some s) :
    Tallied s := by
  refine exec_invariant (I := Tallied) (fun s thread t tallied stepped => ?_) reached tallied_init
  cases thread with
  | main => exact tallied.mainStep stepped
  | worker w => exact tallied.workerStep stepped

/-- With a worker blocked, the count is short. -/
theorem Tallied.short (tallied : Tallied s) (blocked : s.worker w = .blocked) :
    s.rebuildNum < SEGMENT_NUM := by
  have out : ¬ (s.worker w).counted = true := by
    rw [blocked]
    decide
  rw [tallied.count]
  exact Finset.card_lt_card (Finset.filter_ssubset.2 ⟨w, Finset.mem_univ w, out⟩)

/-- **Once the broadcast has missed a worker, `mix_rebuild` never returns.** -/
theorem blocked_forever {threads later : List Thread} (reached : exec step init threads = some s)
    (past : s.main = .waiting) (blocked : s.worker w = .blocked)
    (more : exec step s later = some t) : t.main = .waiting ∧ t.worker w = .blocked := by
  have kept := exec_invariant (I := fun s => Tallied s ∧ s.main = .waiting ∧ s.worker w = .blocked)
    (fun s thread t ⟨tallied, past, blocked⟩ stepped => by
      cases thread with
      | main =>
          simp only [step, State.mainStep, past, if_pos (tallied.short blocked)] at stepped
          cases stepped
      | worker v =>
          obtain ⟨-, main, others⟩ := workerStep_frame stepped
          refine ⟨tallied.workerStep stepped, main.trans past, ?_⟩
          by_cases mine : w = v
          · subst mine
            simp only [step, State.workerStep, blocked] at stepped
            cases stepped
          · exact (others w mine).trans blocked) more
    ⟨tallied_of_exec reached, past, blocked⟩
  exact kept.2

end

/-! ## Two starts -/

def firstWorker : Thread := .worker (segmentOf 0)

def secondWorker : Thread := .worker (segmentOf STRIPE_SIZE)

/-- nvm_worker 0 finds the flag down; then it is set and signalled. -/
def missed : List Thread := [firstWorker, firstWorker, .main, .main, firstWorker]

theorem missed_hangs : ∃ s, exec step init missed = some s ∧ s.Hangs := by
  refine ⟨_, rfl, .inl rfl, segmentOf 0, ?_⟩
  decide

/-- nvm_worker 0 is blocked when the condition is signalled, the others come later. -/
def met : List Thread :=
  [firstWorker, firstWorker, firstWorker, .main, .main, firstWorker, secondWorker]

theorem met_not_hangs : ∃ s, Run step BroadcastGuard init met s ∧ ¬ s.Hangs := by
  have run : ∃ s, Run step BroadcastGuard init met s := by
    refine ⟨_, .cons trivial rfl (.cons trivial rfl (.cons trivial rfl (.cons ?_ rfl
      (.cons ?_ rfl (.cons trivial rfl (.cons trivial rfl (.nil _)))))))⟩
    · intro early
      cases early
    · intro _
      decide
  obtain ⟨s, ran⟩ := run
  exact ⟨s, ran, none_blocked ran⟩

end Mixdk.Startup
