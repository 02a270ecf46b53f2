/-
# Pipeline.Completion -- completion accounting is exact

Nothing is counted early, since what is owed to the counters covers what is still to be
copied or stored; and when all queues and workers are idle everything is counted
(`completion_exact`).

The counters are exact as far as their types go.  `completed_nvm_write_block_num` is an
`atomic_int_fast32_t`, 64 bits wide; `completed_ssd_write_block_num` is an `atomic_int`,
and from 2^31 blocks on it is negative (`completion_wraps`).
-/
import Mixdk.Pipeline.Draining

namespace Mixdk

open Transition

set_option autoImplicit false

/-! ## The write counters -/

/-- `completed_nvm_write_block_num`, an `atomic_int_fast32_t`: 64 bits. -/
def Machine.nvmCompleted (m : Machine) : Int := Int.bmod m.completedNvmWriteBlockNum (2 ^ 64)

/-- `completed_ssd_write_block_num`, an `atomic_int`. -/
def Machine.ssdCompleted (m : Machine) : Int := toInt32 m.completedSsdWriteBlockNum

/-- What a thread adds to a write counter next does not take it out of its type. -/
def Pipeline.CounterRoom (s : Pipeline) : Pipeline.Turn → Prop
  | .nvm idx => ∀ task n rest,
      (s.station idx).nvm = .doing task (.act (.nvmWriteBlockCompleted n) :: rest) →
        s.m.completedNvmWriteBlockNum + n < 2 ^ 63
  | .ssd idx => ∀ task, (s.station idx).ssd = .moved task →
      task.opcode &&& (MIX_READ ||| MIX_WRITE) = MIX_WRITE →
        s.m.completedSsdWriteBlockNum + task.len < 2 ^ 31
  | .post _ | .free _ _ | .scheduler | .migrate _ => True

theorem bmod_of_lt {n : Nat} (small : n < 2 ^ 63) : Int.bmod n (2 ^ 64) = n := by
  rw [Int.bmod_def]
  omega

/-- Neither counter has wrapped. -/
structure Machine.CountersFit (m : Machine) : Prop where
  nvm : m.completedNvmWriteBlockNum < 2 ^ 63
  ssd : m.completedSsdWriteBlockNum < 2 ^ 31

theorem Machine.CountersFit.sum {m : Machine} (fit : m.CountersFit) :
    m.nvmCompleted + m.ssdCompleted =
      (m.completedNvmWriteBlockNum + m.completedSsdWriteBlockNum : Nat) := by
  have nvm : m.nvmCompleted = m.completedNvmWriteBlockNum := bmod_of_lt fit.nvm
  have ssd : m.ssdCompleted = m.completedSsdWriteBlockNum := toInt32_of_lt fit.ssd
  rw [Int.natCast_add, nvm, ssd]

theorem Machine.CountersFit.congr {m m' : Machine} (fit : m.CountersFit)
    (counters : m'.counters = m.counters) : m'.CountersFit := by
  simp only [Machine.counters, Prod.mk.injEq] at counters
  obtain ⟨-, nvm, ssd⟩ := counters
  exact ⟨nvm ▸ fit.nvm, ssd ▸ fit.ssd⟩

namespace Pipeline

variable {submitQueueNum capacity : Nat} {requests : Nat → List Request} {s t : Pipeline}
  {idx : SegIdx}

theorem nvm_countersFit (fit : s.m.CountersFit) (room : s.CounterRoom (.nvm idx))
    (step : NvmStep s idx t) : t.m.CountersFit := by
  cases step with
  | @act task a rest _ doing =>
      cases a with
      | nvmWriteBlockCompleted n => exact ⟨room task n rest doing, fit.ssd⟩
      | postTaskToSsd | readFromBuffer | writeToBuffer | bufferClear | addRet =>
          exact ⟨fit.nvm, fit.ssd⟩
  | turn | nvmTask | ssdTask | full | noTask | postSsd | nvmRead | nvmWrite | finish
  | beginMigration | endMigration => exact ⟨fit.nvm, fit.ssd⟩

theorem ssd_countersFit (fit : s.m.CountersFit) (room : s.CounterRoom (.ssd idx))
    (step : SsdStep s idx t) : t.m.CountersFit := by
  cases step with
  | take => exact fit
  | @stage task _ => exact fit.congr (ssdTaskStage_counters s.m idx task)
  | @move task _ => exact fit.congr (ssdTaskMove_counters s.m idx task)
  | @count task moved =>
      show (s.m.ssdTaskCount task).CountersFit
      unfold Machine.ssdTaskCount
      dsimp only
      split
      · exact ⟨fit.nvm, fit.ssd⟩
      · split
        next write => exact ⟨fit.nvm, room task moved write⟩
        next => exact fit

theorem countersFit_step (fit : s.m.CountersFit) {turn : Turn} (room : s.CounterRoom turn)
    (cases_ : StepCases submitQueueNum s turn t) : t.m.CountersFit := by
  cases cases_ with
  | front step => cases step <;> exact fit
  | nvm idx is step => exact nvm_countersFit fit (is ▸ room) step
  | ssd idx is step => exact ssd_countersFit fit (is ▸ room) step
  | migrate thread is migration moved result =>
      subst result
      exact fit.congr (migrateStep_counters moved)

/-! ## Exactness -/

/-- The completion accounting of a state is exact. -/
structure CountsExact (submitQueueNum : Nat) (requests : Nat → List Request)
    (s : Pipeline) : Prop where
  /-- No block of a read is counted before it is delivered. -/
  reads : ∀ dst len offset flags ret type,
    .read dst len offset flags ret type ∈ batch submitQueueNum requests →
      s.m.ret ret ≤ s.history.delivered ret dst len ∧
        (len ≤ s.m.ret ret → ∀ block ∈ addresses dst len, (ret, block) ∈ s.history.copied)
  /-- No block of a write is counted before it is stored. -/
  writes : s.m.nvmCompleted + s.m.ssdCompleted ≤ s.history.stored.length
  /-- No block of a write is stored twice. -/
  stores : ∀ src, s.history.stored.count src ≤
    ((batch submitQueueNum requests).flatMap Request.sources).count src
  /-- In the end every block is counted. -/
  rest : s.AtRest submitQueueNum →
    (∀ dst len offset flags ret type,
      .read dst len offset flags ret type ∈ batch submitQueueNum requests → s.m.ret ret = len) ∧
    s.m.nvmCompleted + s.m.ssdCompleted =
      (((batch submitQueueNum requests).map Request.writeLen).sum : Nat)

theorem Accounted.delivered (accounted : s.Accounted submitQueueNum requests)
    (plain : ∀ i, ∀ request ∈ requests i, request.Plain)
    (distinct : ((batch submitQueueNum requests).filterMap Request.ret?).Nodup)
    {dst len offset flags ret type : Nat}
    (member : .read dst len offset flags ret type ∈ batch submitQueueNum requests) :
    s.m.ret ret ≤ s.history.delivered ret dst len := by
  have owed := (batch_plain submitQueueNum plain _ member).read_due
  have read {k : Item} (about : k.ret? = some ret) :=
    (accounted.read distinct member about rfl).trans (congrFun owed k)
  have added := @read (.added ret) rfl
  have copies := @read (.copies ret) rfl
  have backed := (accounted.backed.due submitQueueNum).reads ret
  simp only [blocksDue_added, blocksDue_copies, and_self, if_true] at added copies
  have counted : s.m.ret ret ≤ s.history.copied.countP fun copy => copy.1 = ret := by
    change s.m.ret ret + _ = _ at added
    change s.history.copied.countP (fun copy => copy.1 = ret) + _ = _ at copies
    omega
  refine Nat.le_trans counted (delivered_of_count fun d => ?_)
  have once := @read (.copy ret d) rfl
  simp only [blocksDue_copy, and_self, if_true] at once
  exact once ▸ Nat.le_add_right _ _

end Pipeline

/-! ## Short batches -/

namespace Pipeline

variable {submitQueueNum capacity : Nat} {requests : Nat → List Request} {s : Pipeline}

/-- A batch of fewer than 2^31 write blocks leaves both counters room. -/
theorem Accounted.counterRoom (accounted : s.Accounted submitQueueNum requests)
    (plain : ∀ i, ∀ request ∈ requests i, request.Plain)
    (short : ((batch submitQueueNum requests).map Request.writeLen).sum < 2 ^ 31) (turn : Turn) :
    s.CounterRoom turn := by
  have below idx := accounted.station_le idx .counted
  rw [(batch_writes (batch_plain _ plain)).2.1] at below
  change ∀ idx, s.m.completedNvmWriteBlockNum + s.m.completedSsdWriteBlockNum + _ ≤ _ at below
  cases turn with
  | nvm idx =>
      intro task n rest doing
      have here := below idx
      simp only [Station.due, doing, NvmPc.due, deedsDue_cons, deedDue, Pi.add_apply, Pi.smul_apply,
        one_apply, if_true, smul_eq_mul, Nat.mul_one] at here
      omega
  | ssd idx =>
      intro task moved write
      have here := below idx
      simp only [Station.due, moved, SsdPhase.due, countsDue, write, if_neg write_ne_read, if_true,
        Pi.add_apply, Pi.smul_apply, one_apply, smul_eq_mul, Nat.mul_one] at here
      omega
  | post | free | scheduler | migrate => trivial

end Pipeline

theorem guarded_of_short {submitQueueNum capacity : Nat} {m : Machine} {region : Nat → Block}
    {requests : Nat → List Request} (plain : ∀ i, ∀ request ∈ requests i, request.Plain)
    (short : ((batch submitQueueNum requests).map Request.writeLen).sum < 2 ^ 31)
    {turns : List Pipeline.Turn} {s : Pipeline}
    (ran : exec (Pipeline.step submitQueueNum capacity) (.start m region requests) turns = some s) :
    Run (Pipeline.step submitQueueNum capacity) Pipeline.CounterRoom (.start m region requests)
      turns s :=
  Run.of_exec (I := Pipeline.Accounted submitQueueNum requests)
    (fun _ _ _ accounted stepped => accounted.step (Pipeline.step_cases stepped))
    (fun _ turn accounted => accounted.counterRoom plain short turn) ran
    (Pipeline.start_accounted m region fun i request member =>
      (plain i request member).regional)

/-- **Completion accounting is exact as long as the counters do not wrap.** -/
theorem completion_exact {submitQueueNum capacity : Nat} {m : Machine} {region : Nat → Block}
    {requests : Nat → List Request} (plain : ∀ i, ∀ request ∈ requests i, request.Plain)
    (distinct : ((batch submitQueueNum requests).filterMap Request.ret?).Nodup)
    {turns : List Pipeline.Turn} {s : Pipeline}
    (run : Run (Pipeline.step submitQueueNum capacity) Pipeline.CounterRoom
      (.start m region requests) turns s) : s.CountsExact submitQueueNum requests := by
  obtain ⟨accounted, fit⟩ : s.Accounted submitQueueNum requests ∧ s.m.CountersFit := by
    refine run.invariant (I := fun s => s.Accounted submitQueueNum requests ∧ s.m.CountersFit)
      ?_ ⟨Pipeline.start_accounted m region fun i request member =>
      (plain i request member).regional, ?_⟩
    · intro s turn t inv room stepped
      have cases_ := Pipeline.step_cases stepped
      exact ⟨inv.1.step cases_, Pipeline.countersFit_step inv.2 room cases_⟩
    · exact ⟨Nat.two_pow_pos 63, Nat.two_pow_pos 31⟩
  have total (k : Item) := congrFun accounted.total k
  obtain ⟨stores, counted, sources⟩ :=
    batch_writes (batch_plain submitQueueNum plain)
  constructor
  · intro dst len offset flags ret type member
    have delivered := accounted.delivered plain distinct member
    refine ⟨delivered, fun completed => ?_⟩
    have all : s.history.delivered ret dst len = (addresses dst len).length := by
      apply Nat.le_antisymm List.countP_le_length
      rw [addresses, List.length_map, List.length_range]
      exact Nat.le_trans completed delivered
    simpa using List.countP_eq_length.1 all
  · -- what is owed to the counters covers what is still to be stored
    have backed := (accounted.backed.due submitQueueNum).writes
    have done := total .counted
    have stored := total .stores
    rw [counted] at done
    rw [stores] at stored
    rw [fit.sum]
    change s.m.completedNvmWriteBlockNum + s.m.completedSsdWriteBlockNum + _ = _ at done
    change s.history.stored.length + _ = _ at stored
    omega
  · intro src
    rw [← sources, ← total]
    exact Nat.le_add_right _ _
  · intro rest
    have settled (k : Item) : s.done k = ((batch submitQueueNum requests).map Request.due).sum k := by
      rw [← total, rest.due]
      rfl
    constructor
    · intro dst len offset flags ret type member
      have added := accounted.read distinct member (k := .added ret) rfl rfl
      rw [rest.due, (batch_plain submitQueueNum plain _ member).read_due, blocksDue_added,
        if_pos ⟨rfl, rfl⟩] at added
      exact added
    · rw [fit.sum, ← counted, ← settled]
      rfl

/-- A write of two blocks of the NVM region and a read of one block of the SSD, to their ends. -/
theorem writeAndRead_exact : ∃ turns s,
    Run (Pipeline.step 1 4096) Pipeline.CounterRoom (.fresh fun i => if i = 0 then
      [.write 0 2 0 0 0, .read 8192 1 SCHEDULER_THRESHOLD 0 7 0] else []) turns s ∧
    s.m.ret 7 = 1 ∧ s.m.completedNvmWriteBlockNum = 2 ∧
    s.CountsExact 1 fun i => if i = 0 then
      [.write 0 2 0 0 0, .read 8192 1 SCHEDULER_THRESHOLD 0 7 0] else [] := by
  have counted : ((exec (Pipeline.step 1 4096) (.fresh fun i => if i = 0 then
        [.write 0 2 0 0 0, .read 8192 1 SCHEDULER_THRESHOLD 0 7 0] else [])
      ([.post 0, .post 0] ++ List.replicate 4 .scheduler ++ List.replicate 9 (.nvm 0) ++
        List.replicate 4 (.ssd 0))).map fun s =>
          (s.m.ret 7, s.m.completedNvmWriteBlockNum)) = some (1, 2) := by
    decide +kernel
  obtain ⟨s, ran, counts⟩ := Option.map_eq_some_iff.1 counted
  simp only [Prod.mk.injEq] at counts
  have plain : ∀ i, ∀ request ∈ (if i = 0 then
      [.write 0 2 0 0 0, .read 8192 1 SCHEDULER_THRESHOLD 0 7 0] else [] : List Request),
      request.Plain := by
    intro i request member
    split at member
    · rcases List.mem_pair.1 member with rfl | rfl
      · exact ⟨rfl, .inl (by decide)⟩
      · exact ⟨rfl, .inr (by decide)⟩
    · cases member
  have run := guarded_of_short plain (by decide) ran
  exact ⟨_, s, run, counts.1, counts.2, completion_exact plain (by decide) run⟩

/-- The same write to queue 0, `count` times. -/
def sameWrites (count : Nat) (i : Nat) : List Request :=
  if i = 0 then List.replicate count (.write 0 1024 SCHEDULER_THRESHOLD 0 0) else []

theorem sameWrites_batch (count : Nat) :
    batch 1 (sameWrites count) = List.replicate count (.write 0 1024 SCHEDULER_THRESHOLD 0 0) := by
  simp [batch, sameWrites]

theorem sameWrites_whole (count : Nat) : ∀ request ∈
    List.replicate count (Request.write 0 1024 SCHEDULER_THRESHOLD 0 0), request.WholeStripes := by
  intro request member
  rw [List.eq_of_mem_replicate member]
  refine ⟨⟨?_, .inr ?_⟩, Nat.le_refl _, ?_, ?_⟩ <;> decide

theorem sameWrites_sum (count : Nat) :
    ((batch 1 (sameWrites count)).map Request.writeLen).sum = count * 1024 := by
  rw [sameWrites_batch, List.map_replicate, List.sum_replicate, smul_eq_mul]
  rfl

/-- 2^21 writes of 1024 blocks, 2^31 blocks in all: the counter of the ssd_workers is negative. -/
theorem completion_wraps :
    (∀ i, ∀ request ∈ sameWrites (2 ^ 21) i, request.Plain) ∧
    ((batch 1 (sameWrites (2 ^ 21))).filterMap Request.ret?).Nodup ∧
    ∃ turns s, exec (Pipeline.step 1 4096) (.fresh (sameWrites (2 ^ 21))) turns = some s ∧
      s.AtRest 1 ∧ ((batch 1 (sameWrites (2 ^ 21))).map Request.writeLen).sum = 2 ^ 31 ∧
      s.m.nvmCompleted + s.m.ssdCompleted = -2 ^ 31 ∧ ¬ s.CountsExact 1 (sameWrites (2 ^ 21)) := by
  generalize count_eq : 2 ^ 21 = count
  have blocks : count * 1024 = 2 ^ 31 := by
    rw [← count_eq]
    decide +kernel
  obtain ⟨turns, s, ran, rest, nvm, ssd⟩ := wholeStripes_counted (sameWrites_whole count)
  rw [← sameWrites_batch, sameWrites_sum, blocks] at ssd
  have values : Int.bmod (0 : Nat) (2 ^ 64) + toInt32 (2 ^ 31) = -2 ^ 31 := by decide +kernel
  have wrapped : s.m.nvmCompleted + s.m.ssdCompleted = -2 ^ 31 := by
    unfold Machine.nvmCompleted Machine.ssdCompleted
    exact nvm.symm ▸ ssd.symm ▸ values
  refine ⟨wholeStripes_plain (sameWrites_whole count), ?_, turns, s, ran, rest, ?_, wrapped, ?_⟩
  · rw [sameWrites_batch, List.filterMap_eq_nil_iff.2]
    · exact List.nodup_nil
    · intro request member
      rw [List.eq_of_mem_replicate member]
      rfl
  · rw [sameWrites_sum, blocks]
  · intro exact_
    have counted := (exact_.rest rest).2
    rw [wrapped] at counted
    have negative : (-2 ^ 31 : Int) < 0 := by decide
    rw [counted] at negative
    exact absurd negative (Int.not_lt.2 (Int.natCast_nonneg _))

end Mixdk
