/-
# Joint.Returns -- batches that always complete

A batch none of whose writes to the SSD leaves a part of one block in a stripe cannot get stuck: under
every fair schedule of all threads its calls return, with their counters exact (`batch_returns`).  Of
the ends that `Joint.Rest` leaves, a search without end needs a write of a single block, and a round that
is lost needs a migration.  What the buffer holds at the start, and how full it is, makes no difference.
-/
import Mixdk.Joint.Rest
import Mixdk.Pipeline.Completion
import Mixdk.Pipeline.Returns

namespace Mixdk

open Transition

set_option autoImplicit false

/-- Without a migration no round is lost. -/
theorem Joint.Steady.not_hung {P H submitQueueNum : Nat} {s : Joint}
    (steady : s.Steady P H submitQueueNum) (calm : s.pipe.Calm) {w : SegIdx}
    {t : Fin MIGRATE_THREAD_NUM} : ¬ Rounds.Hung w t s.rounds := by
  intro hung
  obtain ⟨task, pc, migrating, -⟩ := steady.migrating (.inl hung.migrating)
  exact calm w task (.inr migrating)

/-- **A batch without writes of a single block of the SSD always completes.** -/
theorem batch_returns {submitQueueNum capacity : Nat}
    (queues : 0 < submitQueueNum ∧ submitQueueNum < 2 ^ 8) (room : 0 < capacity) {m : Machine}
    (region : Nat → Block) (segmentIdx : SegIdx) (all : AllIndexed m.md)
    (some_block : 0 < m.md.perBlockNum) (bits : ∀ idx, 0 < (m.segment idx).bitmap.bits)
    {requests : Nat → List Request} (plain : ∀ i, ∀ request ∈ requests i, request.Plain)
    (distinct : ((batch submitQueueNum requests).filterMap Request.ret?).Nodup)
    (reaches : ∀ i, ∀ request ∈ requests i,
      Pipeline.Reaches submitQueueNum i (request.task i))
    (notSingle : ∀ i, ∀ request ∈ requests i, (request.task i).NotSingle)
    {sched : Nat → Pipeline.Turn} (fair : FairTo (Pipeline.ThreadTurn submitQueueNum) sched) :
    ∃ n, ∀ k, n ≤ k → ∃ s, s = attempts (Joint.step submitQueueNum capacity)
        (.start m region requests segmentIdx) sched k ∧ s.AtRest submitQueueNum ∧
      (∀ dst len offset flags ret type,
        .read dst len offset flags ret type ∈ batch submitQueueNum requests →
          s.pipe.m.ret ret = len) ∧
      (((batch submitQueueNum requests).map Request.writeLen).sum < 2 ^ 31 →
        s.pipe.m.nvmCompleted + s.pipe.m.ssdCompleted =
          ((batch submitQueueNum requests).map Request.writeLen).sum) := by
  have pipe := Pipeline.Steady.start region queues all some_block bits
    (fun i request member => (plain i request member).regional.inside) reaches
  have steady := Joint.Steady.start segmentIdx pipe
  have progress := Joint.progress room m.md.perBlockNum
    (∑ idx, (m.segment idx).hash.hashSize) submitQueueNum
  -- what every state of the schedule is like
  have each (k : Nat) : (attempts (Joint.step submitQueueNum capacity)
      (.start m region requests segmentIdx) sched k).pipe.Slotless m.md.perBlockNum
        (∑ idx, (m.segment idx).hash.hashSize) submitQueueNum requests := by
    obtain ⟨turns, ran⟩ := attempts_exec (Joint.step submitQueueNum capacity)
      (.start m region requests segmentIdx) sched k
    obtain ⟨turns', ran'⟩ := Joint.exec_pipe ran
    exact exec_invariant (fun _ _ _ slotless stepped => slotless.step stepped) ran'
      (.start pipe plain notSingle)
  obtain ⟨n, rest | ⟨idx, spins⟩ | ⟨w, t, hung⟩⟩ := progress.eventually steady fair
  · refine ⟨n, fun k after => ⟨_, rfl, ?_⟩⟩
    have still := progress.stays
      (fun s turn t steady rest stepped => steady.rest_stays rest stepped) steady rest after
    exact ⟨still, (each k).accounted.at_rest still.pipe plain distinct⟩
  · exact absurd spins ((each n).single.no_spin (each n).accounted.fits)
  · exact absurd hung ((progress.inv steady n).not_hung (each n).calm)

/-- A read over two stripes, a write of a whole one, and a write to the NVM region. -/
def threeRequests : List Request :=
  [.read 0 6 (SCHEDULER_THRESHOLD + 2) 0 8 0, .write 0 4 SCHEDULER_THRESHOLD 0 0, .write 0 3 7 0 0]

theorem threeRequests_return : ∃ n, ∀ k, n ≤ k →
    ∃ s, s = attempts (Joint.step 1 4) (.fresh 0 fun i => if i = 0 then threeRequests else [])
        (roundRobin (oneRound 1) (by decide)) k ∧ s.AtRest 1 ∧
      (∀ dst len offset flags ret type,
        .read dst len offset flags ret type ∈
          batch 1 (fun i => if i = 0 then threeRequests else []) → s.pipe.m.ret ret = len) ∧
      (((batch 1 fun i => if i = 0 then threeRequests else []).map Request.writeLen).sum < 2 ^ 31 →
        s.pipe.m.nvmCompleted + s.pipe.m.ssdCompleted =
          ((batch 1 fun i => if i = 0 then threeRequests else []).map Request.writeLen).sum) := by
  have first (i : Nat) (request : Request) (member : request ∈ if i = 0 then threeRequests else []) :
      i = 0 ∧ request ∈ threeRequests := by
    split at member
    next zero => exact ⟨zero, member⟩
    next => cases member
  refine batch_returns (by decide) (by decide) (fun _ _ => 0) 0
    (fun idx => mixMetadataInit_indexed (by decide) idx) (by decide) (fun idx => ?_)
    (fun i request member => ?_) (by decide) (fun i request member => ?_)
    (fun i request member => ?_) (roundRobin_fair _ (oneRound_all 1))
  · show 0 < (mixFreeSegmentInit
      (u32 (BLOCK_SIZE * (BUFFER_BLOCK_NUM / SEGMENT_NUM)))).bitmap.bits
    rw [freeSegmentInit_bits]
    decide
  · have plain : ∀ request ∈ threeRequests, request.Plain := by
      unfold threeRequests Request.Plain
      simp only [List.forall_mem_cons, List.not_mem_nil, false_implies, implies_true, and_true]
      decide
    exact plain request (first i request member).2
  · obtain ⟨rfl, -⟩ := first i request member
    cases request <;> exact ⟨by decide, .inl (show 0 < SEGMENT_NUM by decide)⟩
  · obtain ⟨rfl, inside⟩ := first i request member
    have parts : ∀ request ∈ threeRequests,
        ∀ post ∈ doSchedule (handleTask (request.task 0)), post.NotSingle := by
      decide +kernel
    exact parts request inside

end Mixdk
