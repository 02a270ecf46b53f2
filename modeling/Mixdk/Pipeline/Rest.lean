/-
# Pipeline.Rest -- the threads of the pipeline do not hold each other up

Nothing in MIXDK decides which thread runs.  But apart from the handshakes of a migration, which the
pipeline does not have, no thread keeps another from running for ever, except in one place: an nvm_worker
whose segment has all bits set and free slots left never comes back from `mix_bitmap_next_zero_bit`
(`Pipeline.Spins`).

`progress` says so with `Pipeline.weight`, and with `Helps` for the thread whose turn is awaited.  A thread
that waits is never the one: it waits for room in a queue, and the thread that empties the queue can go on;
or for the end of a migration, and a migrate thread or the worker that began it can go on.  `Joint.Rest` has
the handshakes.
-/
import Mixdk.Pipeline.Helps
import Mixdk.Lib.Fair

namespace Mixdk

open Transition

set_option autoImplicit false

namespace Pipeline

variable {H P submitQueueNum capacity : Nat} {s t : Pipeline} {idx : SegIdx}

/-! ## Some thread can go on -/

/-- The turns of the threads; a caller may free its counter or not. -/
def ThreadTurn (submitQueueNum : Nat) : Turn → Prop
  | .post i => i < submitQueueNum
  | .free .. => False
  | .scheduler | .nvm _ | .ssd _ | .migrate _ => True

/-- The scheduler comes to every queue it polls. -/
theorem pollNext_reaches (queues : 0 < submitQueueNum ∧ submitQueueNum < 2 ^ 8) {i j : Nat}
    (from_ : i < pollPeriod submitQueueNum) (there : j < pollPeriod submitQueueNum) :
    ∃ k, (pollNext submitQueueNum)^[k] i = j := by
  have after (k : Nat) : (pollNext submitQueueNum)^[k] i = (i + k) % pollPeriod submitQueueNum := by
    induction k with
    | zero => rw [Function.iterate_zero_apply, Nat.add_zero, Nat.mod_eq_of_lt from_]
    | succ k ih =>
        rw [Function.iterate_succ_apply', ih, pollNext_eq queues.1 queues.2
          (Nat.mod_lt _ (Nat.zero_lt_of_lt from_)), Nat.mod_add_mod, Nat.add_assoc]
  refine ⟨j + pollPeriod submitQueueNum - i, ?_⟩
  rw [after, show i + (j + pollPeriod submitQueueNum - i) = j + pollPeriod submitQueueNum by omega,
    Nat.add_mod_right, Nat.mod_eq_of_lt there]

/-- **Short of rest, some thread can go on.** -/
theorem Steady.helper (room : 0 < capacity) (steady : s.Steady P H submitQueueNum) :
    s.AtRest submitQueueNum ∨
      ∃ turn k, ThreadTurn submitQueueNum turn ∧ Helps capacity submitQueueNum s turn k := by
  -- the end of the pipeline first: whoever waits, waits for a thread further on
  by_cases ssdWork : ∃ idx, (s.station idx).ssd ≠ .poll
  · obtain ⟨idx, busy⟩ := ssdWork
    exact .inr ⟨.ssd idx, 0, trivial, .ssdWork busy⟩
  have ssdPolls : ∀ idx, (s.station idx).ssd = .poll := by simpa using ssdWork
  by_cases ssdTake : ∃ idx, (s.station idx).ssdQueue ≠ []
  · obtain ⟨idx, waiting⟩ := ssdTake
    exact .inr ⟨.ssd idx, 0, trivial, .ssdTake (ssdPolls idx) waiting⟩
  have ssdEmpty : ∀ idx, (s.station idx).ssdQueue = [] := by simpa using ssdTake
  by_cases deed : ∃ idx task deeds, (s.station idx).nvm = .doing task deeds
  · obtain ⟨idx, task, deeds, doing⟩ := deed
    have free : (s.station idx).ssdQueue.length < capacity := by rwa [ssdEmpty idx]
    exact .inr ⟨.nvm idx, 0, trivial, .deed doing free⟩
  cases running : s.migration with
  | some here =>
      obtain ⟨idx, pc⟩ := here
      by_cases ends : ∀ t, pc t = .done
      · obtain ⟨task, migrating⟩ := (steady.indexes.owner idx).2 ⟨pc, running⟩
        exact .inr ⟨.nvm idx, 0, trivial, .migrated migrating running ends⟩
      · rw [not_forall] at ends
        obtain ⟨t, busy⟩ := ends
        exact .inr ⟨.migrate t, 0, trivial, .walk running busy⟩
  | none =>
      by_cases full : ∃ idx task, (s.station idx).nvm = .full task
      · obtain ⟨idx, task, full⟩ := full
        exact .inr ⟨.nvm idx, 0, trivial, .full full running⟩
      have nvmPolls : ∀ idx, (s.station idx).nvm = .poll := by
        intro idx
        cases at_ : (s.station idx).nvm with
        | poll => rfl
        | doing task deeds => exact absurd ⟨idx, task, deeds, at_⟩ deed
        | full task => exact absurd ⟨idx, task, at_⟩ full
        | migrating task =>
            obtain ⟨pc, there⟩ := (steady.indexes.owner idx).1 ⟨task, at_⟩
            rw [running] at there
            cases there
      by_cases nvmTake : ∃ idx, (s.station idx).bufferQueue ≠ [] ∨ (s.station idx).nvmQueue ≠ []
      · obtain ⟨idx, waiting⟩ := nvmTake
        exact .inr ⟨.nvm idx, 1, trivial, .turn (nvmPolls idx) waiting⟩
      have queuesEmpty : ∀ idx, (s.station idx).bufferQueue = [] ∧ (s.station idx).nvmQueue = [] := by
        simpa using nvmTake
      cases hand : s.hand with
      | cons post rest =>
          cases post with
          | nvm task =>
              have inside := steady.hand task (hand ▸ List.mem_cons_self)
              have free : (s.station ⟨task.queueIdx, inside⟩).nvmQueue.length < capacity := by
                rwa [(queuesEmpty _).2]
              exact .inr ⟨.scheduler, 0, trivial, .handNvm hand inside free⟩
          | buffer idx task =>
              have free : (s.station idx).bufferQueue.length < capacity := by
                rwa [(queuesEmpty idx).1]
              exact .inr ⟨.scheduler, 0, trivial, .handBuffer hand free⟩
      | nil =>
          by_cases submitted : ∃ i, s.submitQueue i ≠ []
          · obtain ⟨i, waiting⟩ := submitted
            obtain ⟨task, rest, queue⟩ := List.exists_cons_of_ne_nil waiting
            have polled := (steady.submitted i task (queue ▸ List.mem_cons_self)).1
            obtain ⟨k, rfl⟩ := pollNext_reaches steady.queues steady.polled polled
            exact .inr ⟨.scheduler, k, trivial, .poll hand waiting⟩
          have submitEmpty : ∀ i, s.submitQueue i = [] := by simpa using submitted
          by_cases posts : ∃ i, s.toPost i ≠ []
          · obtain ⟨i, waiting⟩ := posts
            obtain ⟨request, rest, next⟩ := List.exists_cons_of_ne_nil waiting
            have polled := (steady.toPost i request (next ▸ List.mem_cons_self)).1
            exact .inr ⟨.post i, 0, steady.below polled, .post next (submitEmpty i)⟩
          have postEmpty : ∀ i, s.toPost i = [] := by simpa using posts
          exact .inl
            { posted := fun i _ => postEmpty i
              submitted := fun i _ => submitEmpty i
              hand := hand
              station := fun idx => ⟨(queuesEmpty idx).1, (queuesEmpty idx).2, nvmPolls idx,
                ssdEmpty idx, ssdPolls idx⟩ }

/-! ## Rest lasts, and so does a search without end -/

theorem Unmoved.atRest {turn : Turn} (rest : s.AtRest submitQueueNum) (unmoved : Unmoved turn s t) :
    t.AtRest submitQueueNum where
  posted := fun i below => by rw [unmoved.toPost, rest.posted i below]
  submitted := fun i below => by rw [unmoved.submitQueue, rest.submitted i below]
  hand := by rw [unmoved.hand, rest.hand]
  station := fun j => by
    obtain ⟨odd, same⟩ := unmoved.station j
    rw [same]
    exact rest.station j

/-- At rest the threads only look. -/
theorem Steady.rest_looks (steady : s.Steady P H submitQueueNum) (rest : s.AtRest submitQueueNum)
    {turn : Turn} (stepped : s.step submitQueueNum capacity turn = some t) :
    Looks submitQueueNum s turn t := by
  cases step_cases stepped with
  | front step =>
      cases step with
      | post next queue =>
          rw [rest.posted _ queue] at next
          cases next
      | free => exact .free
      | skip hand queue => exact .skip hand queue
      | schedule _ queue =>
          rw [rest.submitted _ (steady.below steady.polled)] at queue
          cases queue
      | toNvm hand | toBuffer hand =>
          rw [rest.hand] at hand
          cases hand
  | nvm idx is step =>
      subst is
      obtain ⟨buffer, nvmQueue, poll, -, -⟩ := rest.station idx
      have none_ {task : IoTask} {station : Station} :
          ¬ Takes (s.station idx) task station := by
        intro takes
        cases takes with
        | nvm _ queue =>
            rw [nvmQueue] at queue
            cases queue
        | buffer _ queue =>
            rw [buffer] at queue
            cases queue
      cases step with
      | turn _ odd => exact .turn poll odd
      | nvmTask _ takes | ssdTask _ takes | full _ takes | noTask _ takes => exact absurd takes none_
      | postSsd doing | act _ doing | nvmRead doing | nvmWrite doing | finish doing =>
          rw [poll] at doing
          cases doing
      | beginMigration full =>
          rw [poll] at full
          cases full
      | endMigration migrating =>
          rw [poll] at migrating
          cases migrating
  | ssd idx is step =>
      obtain ⟨-, -, -, ssdQueue, ssdPoll⟩ := rest.station idx
      cases step with
      | take _ queue =>
          rw [ssdQueue] at queue
          cases queue
      | stage busy | move busy | count busy =>
          rw [ssdPoll] at busy
          cases busy
  | migrate thread is running =>
      obtain ⟨task, migrating⟩ := (steady.indexes.owner _).2 ⟨_, running⟩
      rw [(rest.station _).2.2.1] at migrating
      cases migrating

end Pipeline

/-- Whether a search ends depends on the segment alone. -/
theorem nvmWorkerSsdTask_spins_congr {md md' : Metadata} {task : IoTask} {idx : SegIdx}
    (size : md'.perBlockNum = md.perBlockNum) (segment : md'.segments idx = md.segments idx)
    (spins : nvmWorkerSsdTask md task idx = .spins) : nvmWorkerSsdTask md' task idx = .spins := by
  obtain ⟨write, small, spinning⟩ := nvmWorkerSsdTask_spins spins
  have test : mixBufferBlockTest md' task.offset idx = mixBufferBlockTest md task.offset idx := by
    simp only [mixBufferBlockTest, segment, size]
  have search : mixGetNextFreeBlock md idx = none := by
    rw [redirectWrite, if_pos small] at spinning
    dsimp only at spinning
    split at spinning
    · cases got : mixGetNextFreeBlock md idx with
      | none => rfl
      | some found =>
          rw [got] at spinning
          dsimp only at spinning
          split at spinning <;> cases spinning
    · cases spinning
  have missed : mixBufferBlockTest md task.offset idx = -1 := by
    by_contra found
    rw [redirectWrite, if_pos small] at spinning
    dsimp only at spinning
    rw [if_neg found] at spinning
    cases spinning
  have search' : mixGetNextFreeBlock md' idx = none := by
    unfold mixGetNextFreeBlock at search ⊢
    dsimp only at search ⊢
    rw [segment, size]
    split at search
    · cases search
    · next room =>
      rw [if_neg room]
      rw [Option.map_eq_none_iff] at search ⊢
      exact search
  rw [nvmWorkerSsdTask, if_neg (by rw [write]; exact write_ne_read), if_pos write, redirectWrite,
    if_pos small]
  simp only [test, missed, if_true, search']
  rfl

namespace Pipeline

variable {H P submitQueueNum capacity : Nat} {s t : Pipeline} {idx : SegIdx}

/-- What other threads do to the queues of an nvm_worker: they put tasks at the end. -/
structure Appended (station station' : Station) : Prop where
  odd : station'.odd = station.odd
  nvm : station'.nvm = station.nvm
  buffer : ∃ more, station'.bufferQueue = station.bufferQueue ++ more
  nvmQueue : ∃ more, station'.nvmQueue = station.nvmQueue ++ more

theorem Appended.same {station station' : Station} (odd : station'.odd = station.odd)
    (nvm : station'.nvm = station.nvm) (buffer : station'.bufferQueue = station.bufferQueue)
    (nvmQueue : station'.nvmQueue = station.nvmQueue) : Appended station station' :=
  ⟨odd, nvm, ⟨[], by rw [buffer, List.append_nil]⟩, ⟨[], by rw [nvmQueue, List.append_nil]⟩⟩

theorem Appended.update {j : SegIdx} {station : Station}
    (stations : t.station = Function.update s.station j station) (idx : SegIdx)
    (appended : Appended (s.station j) station) : Appended (s.station idx) (t.station idx) := by
  rw [stations]
  by_cases here : idx = j
  · subst here
    rwa [Function.update_self]
  · rw [Function.update_of_ne here]
    exact .same rfl rfl rfl rfl

theorem step_appended {turn : Turn} (stepped : s.step submitQueueNum capacity turn = some t)
    (other : turn ≠ .nvm idx) : Appended (s.station idx) (t.station idx) := by
  cases step_cases stepped with
  | front step =>
      cases step with
      | post | free | skip | schedule => exact .same rfl rfl rfl rfl
      | @toNvm task rest hand inside =>
          refine Appended.update (j := ⟨task.queueIdx, inside⟩) rfl idx ?_
          exact ⟨rfl, rfl, ⟨[], (List.append_nil _).symm⟩, ⟨[task], rfl⟩⟩
      | @toBuffer j task rest hand =>
          refine Appended.update (j := j) rfl idx ?_
          exact ⟨rfl, rfl, ⟨[task], rfl⟩, ⟨[], (List.append_nil _).symm⟩⟩
  | nvm j is step =>
      subst is
      have apart : idx ≠ j := by
        rintro rfl
        exact other rfl
      have same : t.station idx = s.station idx := by
        cases step <;> exact Function.update_of_ne apart _ _
      rw [same]
      exact .same rfl rfl rfl rfl
  | ssd j is step =>
      cases step <;> refine Appended.update (j := j) rfl idx ?_ <;> exact .same rfl rfl rfl rfl
  | migrate _ _ _ _ result =>
      subst result
      exact .same rfl rfl rfl rfl

theorem Takes.appended {station station' next : Station} {task : IoTask}
    (takes : Takes station task next) (appended : Appended station station') :
    ∃ next', Takes station' task next' := by
  cases takes with
  | nvm odd queue =>
      obtain ⟨more, longer⟩ := appended.nvmQueue
      rw [queue, List.cons_append] at longer
      exact ⟨_, .nvm (appended.odd.trans odd) longer⟩
  | buffer odd queue =>
      obtain ⟨more, longer⟩ := appended.buffer
      rw [queue, List.cons_append] at longer
      exact ⟨_, .buffer (appended.odd.trans odd) longer⟩

/-- The searching worker itself takes no step. -/
theorem Spins.blocked (spins : s.Spins idx) : s.step submitQueueNum capacity (.nvm idx) = none := by
  obtain ⟨poll, ⟨task, station, takes, type, result⟩, -, -⟩ := spins
  have notNvm : ¬ SSD_TASK = NVM_TASK := by decide
  show s.nvmStep capacity idx = none
  unfold nvmStep
  rw [poll]
  cases takes with
  | nvm odd queue =>
      simp [pollStep, odd, queue, begin, notNvm, type, result, resume]
  | buffer even queue =>
      simp [pollStep, even, queue, begin, notNvm, type, result, resume]

/-- **A search without end goes on whatever the other threads do.** -/
theorem Steady.spins_stay (steady : s.Steady P H submitQueueNum) (spins : s.Spins idx) {turn : Turn}
    (stepped : s.step submitQueueNum capacity turn = some t) : t.Spins idx := by
  have other : turn ≠ .nvm idx := by
    rintro rfl
    rw [spins.blocked] at stepped
    cases stepped
  have appended := step_appended stepped other
  have segment : t.m.segment idx = s.m.segment idx := by
    by_contra changed
    rcases steady.indexes.step_owns steady.fits steady.some_block stepped changed with
      ⟨is, -⟩ | ⟨_, pc, -, running⟩
    · exact other is
    · obtain ⟨task, migrating⟩ := (steady.indexes.owner idx).2 ⟨pc, running⟩
      rw [spins.poll] at migrating
      cases migrating
  have size : t.m.md.perBlockNum = s.m.md.perBlockNum := by
    rw [(steady.step stepped).indexes.perBlockNum, steady.indexes.perBlockNum]
  obtain ⟨task, station, takes, type, result⟩ := spins.takes
  obtain ⟨station', takes'⟩ := Takes.appended takes appended
  refine ⟨appended.nvm.trans spins.poll, ⟨task, station', takes', type, ?_⟩, ?_, ?_⟩
  · exact nvmWorkerSsdTask_spins_congr size segment result
  · rw [segment]
    exact spins.allSet
  · rw [segment, size]
    exact spins.room

/-! ## Fair schedules -/

/-- Where every fair schedule leads. -/
def Settled (submitQueueNum : Nat) (s : Pipeline) : Prop :=
  s.AtRest submitQueueNum ∨ ∃ idx, s.Spins idx

theorem progress (room : 0 < capacity) (P H submitQueueNum : Nat) :
    Progress (step submitQueueNum capacity) (ThreadTurn submitQueueNum)
      (Steady P H submitQueueNum) (Settled submitQueueNum) (weight H submitQueueNum)
      (Helps capacity submitQueueNum) where
  preserved := fun _ _ _ steady stepped => steady.step stepped
  helper := fun _ steady => (steady.helper room).imp_left .inl
  others := fun _ _ _ _ _ steady helps other stepped =>
    (steady.weight_lt stepped).imp_right fun looks =>
      ⟨Nat.le_of_eq looks.unmoved.weight, helps.keep other looks.unmoved⟩
  helps := fun _ _ _ steady helps => (helps.progress room steady).imp_left .inr

theorem Steady.start {m : Machine} (region : Nat → Block) {requests : Nat → List Request}
    (queues : 0 < submitQueueNum ∧ submitQueueNum < 2 ^ 8) (all : AllIndexed m.md)
    (some_block : 0 < m.md.perBlockNum) (bits : ∀ idx, 0 < (m.segment idx).bitmap.bits)
    (inside : ∀ i, ∀ request ∈ requests i, request.Inside)
    (reaches : ∀ i, ∀ request ∈ requests i, Reaches submitQueueNum i (request.task i)) :
    (Pipeline.start m region requests).Steady m.md.perBlockNum
      (∑ idx, (m.segment idx).hash.hashSize) submitQueueNum where
  fits := start_fits m region inside
  indexes := .start region requests all
  some_block := some_block
  size := fun idx => Finset.single_le_sum (f := fun idx => (m.segment idx).hash.hashSize)
    (fun _ _ => Nat.zero_le _) (Finset.mem_univ idx)
  bits := bits
  queues := queues
  polled := pollPeriod_pos queues.1
  toPost := reaches
  submitted := fun _ _ member => nomatch member
  hand := fun _ member => nomatch member

end Pipeline

/-- The turns of all threads. -/
def oneRound (submitQueueNum : Nat) : List Pipeline.Turn :=
  .scheduler :: (List.range submitQueueNum).map .post ++ (List.finRange SEGMENT_NUM).map .nvm ++
    (List.finRange SEGMENT_NUM).map .ssd ++ (List.finRange MIGRATE_THREAD_NUM).map .migrate

theorem oneRound_all (submitQueueNum : Nat) (turn : Pipeline.Turn)
    (thread : Pipeline.ThreadTurn submitQueueNum turn) : turn ∈ oneRound submitQueueNum := by
  cases turn with
  | post i => exact List.mem_append_left _ (List.mem_append_left _ (List.mem_append_left _
      (List.mem_cons_of_mem _ (List.mem_map_of_mem (List.mem_range.2 thread)))))
  | free => exact thread.elim
  | scheduler => exact List.mem_append_left _ (List.mem_append_left _ (List.mem_append_left _
      List.mem_cons_self))
  | nvm idx => exact List.mem_append_left _ (List.mem_append_left _ (List.mem_append_right _
      (List.mem_map_of_mem (List.mem_finRange idx))))
  | ssd idx => exact List.mem_append_left _ (List.mem_append_right _
      (List.mem_map_of_mem (List.mem_finRange idx)))
  | migrate t => exact List.mem_append_right _ (List.mem_map_of_mem (List.mem_finRange t))

end Mixdk
