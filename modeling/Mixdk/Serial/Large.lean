/-
# Serial.Large -- writes of more than one block

What can go wrong with the order of requests goes wrong in the buffer, and only a write of a single
block goes there.  A batch whose writes to the SSD have more than one block in every stripe they
touch leaves an empty buffer empty (`Unbuffered.step`): no segment gets full and no block gets
lost.  So MIXDK is a linearizable disk for such a batch whatever its threads do, and nothing is left
to assume of the run (`large_linearizable`); nor does it have to come to rest, for every run can go
on to where it does.
-/
import Mixdk.Pipeline.Rest
import Mixdk.Pipeline.Returns
import Mixdk.Serial.Linear

namespace Mixdk

open Transition Linear

set_option autoImplicit false

section

variable {md : Metadata} {idx : SegIdx} {task : IoTask}

/-- A task that writes no single block is never stuck, and leaves an empty segment as it is. -/
theorem nvmWorkerSsdTask_unbuffered (ok : Indexed md.perBlockNum (md.segments idx))
    (large : opCode task = MIX_WRITE → WRITE_THRESHOLD < task.len)
    (empty : (md.segments idx).hash.entries = []) :
    ∃ actions ret, nvmWorkerSsdTask md task idx = .done md actions ret := by
  have absent : ∀ key, mixHashGet (md.segments idx).hash key = -1 := by
    intro key
    have missing : (md.segments idx).hash.find? key = none := by
      rw [ok.sound.find?_eq_none_iff ok.keys]
      intro v member
      rw [empty] at member
      cases member
    rw [mixHashGet_eq, missing]
  by_cases write : opCode task = MIX_WRITE
  · exact ⟨_, _, nvmWorkerSsdTask_large absent write (Nat.not_le.2 (large write))⟩
  · unfold nvmWorkerSsdTask
    rw [if_neg write]
    split <;> exact ⟨_, _, rfl⟩

/-- With an empty segment no large write loses a block. -/
theorem clearsWhole_of_empty (ok : Indexed md.perBlockNum (md.segments idx))
    (empty : (md.segments idx).hash.entries = []) : ClearsWhole md task idx := by
  intro i j _ _ found
  refine absurd (ok.test_eq_neg_one_iff.2 ?_) found
  rw [ok.sound.find?_eq_none_iff ok.keys]
  intro v member
  rw [empty] at member
  cases member

end

namespace Pipeline

/-- Nothing is in the buffer, and nobody migrates. -/
structure Unbuffered (s : Pipeline) : Prop where
  empty : ∀ idx, (s.m.segment idx).hash.entries = []
  calm : ∀ idx task, ¬ (s.station idx).nvm.Migrates task

section

variable {P submitQueueNum capacity : Nat} {s t : Pipeline} {idx : SegIdx}

/-- **Nothing gets into the buffer.** -/
theorem Unbuffered.step (unbuffered : s.Unbuffered) (single : s.NotSingle) (fits : s.Fits)
    (indexes : s.Indexes P) {turn : Turn} (cases_ : StepCases submitQueueNum s turn t) :
    t.Unbuffered := by
  have calm : s.Calm := unbuffered.calm
  have md : t.m.md = s.m.md := by
    cases cases_ with
    | front step => cases step <;> rfl
    | nvm idx _ step =>
        cases step with
        | turn | nvmTask | full | noTask | postSsd | nvmRead | nvmWrite | finish | beginMigration =>
            rfl
        | @act task a => exact perform_md s.m a
        | @ssdTask task station md actions ret poll takes type result =>
            have own := indexes.own fun task at_ => calm idx task (.inr at_)
            obtain ⟨actions', ret', done⟩ := nvmWorkerSsdTask_unbuffered own
              (single.taken fits takes type) (unbuffered.empty idx)
            rw [done] at result
            cases result
            rfl
        | endMigration migrating => exact absurd (.inr migrating) (calm idx _)
    | ssd idx _ step =>
        cases step with
        | take => rfl
        | stage => exact ssdTaskStage_md ..
        | move => exact ssdTaskMove_md ..
        | count => exact ssdTaskCount_md ..
    | @migrate idx pc next thread _ migration =>
        obtain ⟨task, migrating⟩ := (indexes.owner idx).2 ⟨pc, migration⟩
        exact absurd (.inr migrating) (calm idx task)
  refine ⟨fun idx => ?_, calm.step single fits indexes cases_⟩
  rw [Machine.segment, md]
  exact unbuffered.empty idx

/-- And what is begun loses nothing. -/
theorem Unbuffered.begins (unbuffered : s.Unbuffered) (single : s.NotSingle)
    (indexes : s.Indexes P) (turn : Turn) : s.Begins LosesNothing turn := by
  refine ⟨fun idx task full => unbuffered.calm idx task (.inl full), fun p begun => ?_⟩
  cases p with
  | nvm => trivial
  | buffer idx task =>
      intro write
      have large : WRITE_THRESHOLD < task.len := by
        cases turn with
        | nvm i =>
            simp only [Pipeline.begun] at begun
            split at begun
            · have first := List.mem_of_mem_head? begun
              rw [Station.lane] at first
              split at first
              · obtain ⟨_, -, other⟩ := List.mem_map.1 first
                cases other
              · obtain ⟨_, there, same⟩ := List.mem_map.1 first
                cases same
                exact single.buffer _ task there write
            · cases begun
            · cases begun
            · cases begun
        | post | free | scheduler | ssd | migrate => cases begun
      rw [WriteSafe, if_neg (Nat.not_le.2 large)]
      exact clearsWhole_of_empty (indexes.own fun task at_ => unbuffered.calm idx task (.inr at_))
        (unbuffered.empty idx)

/-- What holds in every run of a batch of large writes. -/
structure Roomy (P H submitQueueNum : Nat) (s : Pipeline) : Prop where
  steady : s.Steady P H submitQueueNum
  single : s.NotSingle
  unbuffered : s.Unbuffered

theorem Roomy.step {H : Nat} (roomy : s.Roomy P H submitQueueNum) {turn : Turn}
    (stepped : s.step submitQueueNum capacity turn = some t) : t.Roomy P H submitQueueNum :=
  have cases_ := step_cases stepped
  { steady := roomy.steady.step stepped
    single := roomy.single.step cases_
    unbuffered := roomy.unbuffered.step roomy.single roomy.steady.fits roomy.steady.indexes cases_ }

/-- Every run goes on to where all is done. -/
theorem Roomy.finishes {H : Nat} (roomy : s.Roomy P H submitQueueNum) (room : 0 < capacity) :
    ∃ turns t, exec (Pipeline.step submitQueueNum capacity) s turns = some t ∧
      t.AtRest submitQueueNum := by
  have some_ : 0 < (oneRound submitQueueNum).length := by simp [oneRound]
  obtain ⟨n, settled⟩ := (progress room P H submitQueueNum).eventually roomy.steady
    (roundRobin_fair some_ (oneRound_all submitQueueNum))
  obtain ⟨turns, ran⟩ := attempts_exec (Pipeline.step submitQueueNum capacity) s
    (roundRobin (oneRound submitQueueNum) some_) n
  have there := exec_invariant (I := Roomy P H submitQueueNum)
    (fun _ _ _ roomy stepped => roomy.step stepped) ran roomy
  exact ⟨turns, _, ran, settled.resolve_right fun ⟨_, spins⟩ =>
    there.single.no_spin there.steady.fits spins⟩

end

end Pipeline

/-- A write over two stripes, and a read of what it writes by another submit queue. -/
def largeRequests (i : Nat) : List Request :=
  if i = 0 then [.write 0 6 (SCHEDULER_THRESHOLD + 2) 0 0]
  else if i = 1 then [.read 65536 4 (SCHEDULER_THRESHOLD + 4) 0 9 0]
  else []

end Mixdk
