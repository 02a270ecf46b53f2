/-
# Pipeline.Weight -- how much a pipeline has left to do

`Pipeline.weight` bounds the steps the threads can still take, apart from those that only
look: an nvm_worker that turns from an empty queue to the other, the scheduler that goes on
from an empty queue to the next, a caller that frees its counter (`Looks`).  Every other
step makes the weight smaller (`weight_lt`).

A request weighs what the tasks it is cut into weigh, and a task what its worker may come to
do for it.  A task of a buffer queue may need a migration of its segment, so it weighs a whole walk of
the migrate threads; what the threads pop was put there by a write, which has paid for it.
-/
import Mixdk.Pipeline.Indexes
import Mixdk.Pipeline.Owed
import Mathlib.Algebra.Order.BigOperators.Group.Finset

namespace Mixdk

set_option autoImplicit false

/-! ## Weights -/

/-- A task passed on is worth the four steps of the ssd_worker. -/
def Deed.weight : Deed → Nat
  | .act (.postTaskToSsd _) => 5
  | _ => 1

def deedsWeight (deeds : List Deed) : Nat := (deeds.map Deed.weight).sum

/-- A walk of all migrate threads through `H` buckets, but for what they pop. -/
def walkWeight (H : Nat) : Nat := MIGRATE_THREAD_NUM * (H + 1)

def NvmPc.weight (H : Nat) : NvmPc → Nat
  | .poll => 0
  | .doing _ deeds => deedsWeight deeds + 1
  | .full _ => walkWeight H + 20
  | .migrating _ => 15

def SsdPhase.weight : SsdPhase → Nat
  | .poll => 0
  | .execute _ => 3
  | .staged _ => 2
  | .moved _ => 1

/-- A task of a buffer queue. -/
def partWeight (H : Nat) (task : IoTask) : Nat := 5 * task.len + walkWeight H + 21

/-- A task of an NVM queue. -/
def nvmTaskWeight (task : IoTask) : Nat := deedsWeight (nvmWorkerNvmTask task) + 2

def Station.weight (H : Nat) (station : Station) : Nat :=
  (station.bufferQueue.map (partWeight H)).sum + (station.nvmQueue.map nvmTaskWeight).sum +
    station.nvm.weight H + 4 * station.ssdQueue.length + station.ssd.weight

def Post.weight (H : Nat) : Post → Nat
  | .nvm task => nvmTaskWeight task + 1
  | .buffer _ task => partWeight H task + 1

def handWeight (H : Nat) (posts : List Post) : Nat := (posts.map (Post.weight H)).sum

/-- A task of a submit queue. -/
def submitWeight (H : Nat) (task : IoTask) : Nat := handWeight H (doSchedule (handleTask task)) + 1

def requestWeight (H i : Nat) (request : Request) : Nat := submitWeight H (request.task i) + 1

namespace Pipeline

/-- What the migrate threads have left of their walks. -/
def walkLeft (s : Pipeline) : Nat :=
  match s.migration with
  | none => 0
  | some (idx, pc) => ∑ t, (pc t).toGo (s.m.segment idx).hash.hashSize

/-- What is left to do in `s`, when no table has more than `H` buckets. -/
def weight (H submitQueueNum : Nat) (s : Pipeline) : Nat :=
  ∑ i ∈ Finset.range submitQueueNum, ((s.toPost i).map (requestWeight H i)).sum +
    ∑ i ∈ Finset.range submitQueueNum, ((s.submitQueue i).map (submitWeight H)).sum +
    handWeight H s.hand + ∑ idx, (s.station idx).weight H +
    ∑ idx, 10 * (s.m.segment idx).hash.entries.length + s.walkLeft

end Pipeline

/-! ## The weight of what a worker does -/

section

variable {H : Nat} {md md' : Metadata} {task : IoTask} {idx : SegIdx} {actions : List Action}
  {ret : Nat}

theorem deedsWeight_append (xs ys : List Deed) :
    deedsWeight (xs ++ ys) = deedsWeight xs + deedsWeight ys := by
  rw [deedsWeight, List.map_append, List.sum_append]
  rfl

theorem deedsWeight_cons (deed : Deed) (deeds : List Deed) :
    deedsWeight (deed :: deeds) = deed.weight + deedsWeight deeds := List.sum_cons

theorem Delivers.weight_le {n i : Nat} (delivers : Delivers md task idx n i actions) :
    deedsWeight (actions.map .act) + 5 * i ≤ 5 * n := by
  induction delivers with
  | done => exact Nat.le_of_eq (Nat.zero_add _)
  | buffer _ _ _ ih =>
      rw [List.map_cons, deedsWeight_cons]
      simp only [Deed.weight]
      omega
  | ssd some_block _ _ _ ih =>
      rw [List.map_cons, deedsWeight_cons]
      simp only [Deed.weight]
      omega

theorem clearBlockLoop_length (n offset : Nat) (md : Metadata) :
    (clearBlockLoop idx n offset md).2.length ≤ n := by
  induction n generalizing offset md with
  | zero => exact Nat.le_refl 0
  | succ n ih =>
      rw [clearBlockLoop]
      dsimp only
      split
      · exact Nat.zero_le _
      · exact Nat.succ_le_succ (ih _ _)

theorem clears_weight (blocks : List Nat) :
    deedsWeight ((blocks.map Action.bufferClear).map .act) = blocks.length := by
  induction blocks with
  | nil => rfl
  | cons b blocks ih =>
      rw [List.map_cons, List.map_cons, deedsWeight_cons, ih, List.length_cons]
      simp only [Deed.weight]
      omega

/-- A task of a buffer queue weighs more than what its worker does for it, with an entry. -/
theorem nvmWorkerSsdTask_weight (result : nvmWorkerSsdTask md task idx = .done md' actions ret)
    (inRange : InRange task) : deedsWeight (actions.map .act) ≤ 5 * task.len + 6 := by
  have does := nvmWorkerSsdTask_actions inRange result
  cases does with
  | @read reads _ delivers =>
      have first := delivers.weight_le
      have last : deedsWeight ([Action.addRet task.ret (hits reads)].map Deed.act) = 1 := rfl
      rw [List.map_append, deedsWeight_append]
      omega
  | small op small block =>
      have two : deedsWeight ([Action.writeToBuffer task.buf task.offset block task.opcode,
          .nvmWriteBlockCompleted task.len].map .act) = 2 := rfl
      rw [two]
      omega
  | large op large cleared =>
      have short : cleared.length ≤ task.len := by
        have wrote : nvmWorkerSsdTask md task idx = (redirectWrite md task idx).counted := by
          rw [nvmWorkerSsdTask, op, if_neg write_ne_read, if_pos rfl]
        rw [wrote, redirectWrite, if_neg large] at result
        simp only [WriteResult.counted, WriteResult.done.injEq, List.cons_append,
          List.cons.injEq, true_and] at result
        have same : cleared = (mixClearBlock md task idx).2 := by
          have lists := List.append_inj_left' result.2.1 rfl
          exact (List.map_injective_iff.2 (fun _ _ e => Action.bufferClear.inj e) lists).symm
        rw [same]
        exact clearBlockLoop_length ..
      have tail : deedsWeight ((cleared.map Action.bufferClear ++
          [Action.nvmWriteBlockCompleted 0]).map .act) = cleared.length + 1 := by
        rw [List.map_append, deedsWeight_append, clears_weight]
        rfl
      rw [List.map_cons, deedsWeight_cons, tail]
      simp only [Deed.weight]
      omega
  | nothing => exact Nat.zero_le _

/-- A task makes at most one entry, in a table of the same size. -/
structure OneEntry (seg seg' : Segment) : Prop where
  entries : seg'.hash.entries.length ≤ seg.hash.entries.length + 1
  size : seg'.hash.hashSize = seg.hash.hashSize

theorem OneEntry.same (seg : Segment) : OneEntry seg seg := ⟨Nat.le_succ _, rfl⟩

theorem SmallWrite.oneEntry (ok : Indexed md.perBlockNum (md.segments idx))
    (outcome : SmallWrite md task idx (.done md' actions ret)) :
    OneEntry (md.segments idx) (md'.segments idx) := by
  cases outcome with
  | overwrite => exact .same _
  | @enter v =>
      rw [Metadata.setSegment_self]
      exact ⟨Nat.le_of_eq (ok.sound.entries_put task.offset v).length_eq, put_hashSize ..⟩
  | leak =>
      rw [Metadata.setSegment_self]
      exact ⟨Nat.le_succ _, rfl⟩

theorem clearBlockLoop_size (n offset : Nat) (md : Metadata) :
    ((clearBlockLoop idx n offset md).1.segments idx).hash.hashSize =
      (md.segments idx).hash.hashSize := by
  induction n generalizing offset md with
  | zero => rfl
  | succ n ih =>
      rw [clearBlockLoop]
      dsimp only
      split
      · rfl
      · rw [ih, clearEntry, Metadata.setSegment_self, delete_hashSize]

theorem nvmWorkerSsdTask_oneEntry (ok : Indexed md.perBlockNum (md.segments idx))
    (inRange : InRange task) (result : nvmWorkerSsdTask md task idx = .done md' actions ret) :
    OneEntry (md.segments idx) (md'.segments idx) := by
  unfold nvmWorkerSsdTask at result
  split at result
  · cases result
    exact .same _
  · split at result
    · obtain ⟨before, written⟩ := counted_eq_done result
      by_cases small : task.len ≤ WRITE_THRESHOLD
      · have outcome := redirectWrite_small ok inRange small
        rw [written] at outcome
        exact outcome.oneEntry ok
      · rw [redirectWrite, if_neg small] at written
        cases written
        obtain ⟨removed, -, cleared⟩ := clearBlockLoop_spec task.len task.offset md ok inRange.2
        have fewer := cleared.entries.length_eq
        rw [List.length_append] at fewer
        exact ⟨by rw [mixClearBlock]; omega, clearBlockLoop_size ..⟩
    · cases result
      exact .same _

end

/-! ## Tasks come to a station -/

theorem Station.weight_nvm (H : Nat) (station : Station) (task : IoTask) :
    ({ station with nvmQueue := station.nvmQueue ++ [task] } : Station).weight H =
      station.weight H + nvmTaskWeight task := by
  simp only [Station.weight, List.map_append, List.sum_append, List.map_cons, List.map_nil,
    List.sum_cons, List.sum_nil]
  omega

theorem Station.weight_buffer (H : Nat) (station : Station) (task : IoTask) :
    ({ station with bufferQueue := station.bufferQueue ++ [task] } : Station).weight H =
      station.weight H + partWeight H task := by
  simp only [Station.weight, List.map_append, List.sum_append, List.map_cons, List.map_nil,
    List.sum_cons, List.sum_nil]
  omega

/-- The nvm_worker pays for what it takes with the task's weight. -/
theorem Takes.weight {H : Nat} {station station' : Station} {task : IoTask}
    (takes : Pipeline.Takes station task station') (poll : station.nvm = .poll) (pc : NvmPc) :
    (∃ w, ({ station' with nvm := pc } : Station).weight H + w = station.weight H + pc.weight H ∧
      (w = nvmTaskWeight task ∧ task ∈ station.nvmQueue ∨
        w = partWeight H task ∧ task ∈ station.bufferQueue)) := by
  cases takes with
  | nvm odd queue =>
      refine ⟨_, ?_, .inl ⟨rfl, queue ▸ List.mem_cons_self⟩⟩
      simp only [Station.weight, queue, poll, NvmPc.weight, List.map_cons, List.sum_cons]
      omega
  | buffer even queue =>
      refine ⟨_, ?_, .inr ⟨rfl, queue ▸ List.mem_cons_self⟩⟩
      simp only [Station.weight, queue, poll, NvmPc.weight, List.map_cons, List.sum_cons]
      omega

/-! ## Sums in which one summand changes -/

theorem sum_one {ι : Type} [DecidableEq ι] {indices : Finset ι} {i : ι} (member : i ∈ indices)
    {f g : ι → Nat} (others : ∀ j ≠ i, g j = f j) :
    ∑ j ∈ indices, g j + f i = ∑ j ∈ indices, f j + g i := by
  have same : ∑ j ∈ indices.erase i, g j = ∑ j ∈ indices.erase i, f j :=
    Finset.sum_congr rfl fun j inside => others j (Finset.ne_of_mem_erase inside)
  rw [← Finset.add_sum_erase indices g member, ← Finset.add_sum_erase indices f member, same]
  omega

/-! ## Every step but a look makes the weight smaller -/

namespace Pipeline

/-- A thread looks, and finds nothing to do; or a caller frees its counter. -/
inductive Looks (submitQueueNum : Nat) (s : Pipeline) : Turn → Pipeline → Prop
  | turn {idx : SegIdx} (poll : (s.station idx).nvm = .poll) (odd : Bool) :
      Looks submitQueueNum s (.nvm idx) (s.setStation idx { s.station idx with odd := odd })
  | skip (hand : s.hand = []) (queue : s.submitQueue s.idx = []) :
      Looks submitQueueNum s .scheduler { s with idx := pollNext submitQueueNum s.idx }
  | free {i : Nat} {request : Request} {history : History} :
      Looks submitQueueNum s (.free i request) { s with history := history }

section

variable {H P submitQueueNum : Nat} {s t : Pipeline} {idx : SegIdx}

/-- A step of one worker, with what it does to its segment and to the migrate threads. -/
theorem weight_lt_of (idx : SegIdx) {station : Station} (toPost : t.toPost = s.toPost)
    (submitQueue : t.submitQueue = s.submitQueue) (hand : t.hand = s.hand)
    (stations : t.station = Function.update s.station idx station)
    (segments : ∀ j ≠ idx, t.m.segment j = s.m.segment j)
    (less : station.weight H + 10 * (t.m.segment idx).hash.entries.length + t.walkLeft <
      (s.station idx).weight H + 10 * (s.m.segment idx).hash.entries.length + s.walkLeft) :
    t.weight H submitQueueNum < s.weight H submitQueueNum := by
  have here := sum_one (Finset.mem_univ idx) (f := fun j => (s.station j).weight H)
    (g := fun j => (t.station j).weight H)
    fun j other => by rw [stations, Function.update_of_ne other]
  have entries := sum_one (Finset.mem_univ idx)
    (f := fun j => 10 * (s.m.segment j).hash.entries.length)
    (g := fun j => 10 * (t.m.segment j).hash.entries.length)
    fun j other => by rw [segments j other]
  have self : t.station idx = station := by rw [stations, Function.update_self]
  simp only [self] at here
  simp only [weight, toPost, submitQueue, hand]
  omega

/-- The same when the index and the migration stay as they are. -/
theorem weight_lt_of_station (idx : SegIdx) {station : Station} (toPost : t.toPost = s.toPost)
    (submitQueue : t.submitQueue = s.submitQueue) (hand : t.hand = s.hand)
    (stations : t.station = Function.update s.station idx station) (md : t.m.md = s.m.md)
    (migration : t.migration = s.migration) (less : station.weight H < (s.station idx).weight H) :
    t.weight H submitQueueNum < s.weight H submitQueueNum := by
  have segment : ∀ j, t.m.segment j = s.m.segment j := fun j => by
    rw [Machine.segment, md, Machine.segment]
  refine weight_lt_of idx toPost submitQueue hand stations (fun j _ => segment j) ?_
  have walk : t.walkLeft = s.walkLeft := by simp only [walkLeft, migration, segment]
  rw [segment, walk]
  omega

theorem weight_front {turn : Turn} (polled : s.idx < submitQueueNum)
    (step : FrontStep submitQueueNum s turn t) :
    t.weight H submitQueueNum < s.weight H submitQueueNum ∨ Looks submitQueueNum s turn t := by
  cases step with
  | @post i request rest next queue =>
      refine .inl ?_
      have posted := sum_one (Finset.mem_range.2 queue)
        (f := fun j => ((s.toPost j).map (requestWeight H j)).sum)
        (g := fun j => ((Function.update s.toPost i rest j).map (requestWeight H j)).sum)
        fun j other => by rw [Function.update_of_ne other]
      have queued := sum_one (Finset.mem_range.2 queue)
        (f := fun j => ((s.submitQueue j).map (submitWeight H)).sum)
        (g := fun j => ((Function.update s.submitQueue i (s.submitQueue i ++ [request.task i])
          j).map (submitWeight H)).sum)
        fun j other => by rw [Function.update_of_ne other]
      simp only [next, Function.update_self, List.map_cons, List.sum_cons, List.map_append,
        List.sum_append, List.map_nil, List.sum_nil] at posted queued
      have paid : requestWeight H i request = submitWeight H (request.task i) + 1 := rfl
      simp only [weight, walkLeft]
      omega
  | free => exact .inr .free
  | skip hand queue => exact .inr (.skip hand queue)
  | @schedule task rest hand queue =>
      refine .inl ?_
      have taken := sum_one (Finset.mem_range.2 polled)
        (f := fun j => ((s.submitQueue j).map (submitWeight H)).sum)
        (g := fun j => ((Function.update s.submitQueue s.idx rest j).map (submitWeight H)).sum)
        fun j other => by rw [Function.update_of_ne other]
      simp only [queue, Function.update_self, List.map_cons, List.sum_cons] at taken
      have paid : submitWeight H task = handWeight H (doSchedule (handleTask task)) + 1 := rfl
      have empty : handWeight H ([] : List Post) = 0 := rfl
      simp only [weight, walkLeft, hand, empty]
      omega
  | @toNvm task rest hand inside =>
      refine .inl ?_
      have here := sum_one (ι := SegIdx) (Finset.mem_univ ⟨task.queueIdx, inside⟩)
        (f := fun j => (s.station j).weight H)
        (g := fun j => (Function.update s.station ⟨task.queueIdx, inside⟩
          { s.station ⟨task.queueIdx, inside⟩ with
            nvmQueue := (s.station ⟨task.queueIdx, inside⟩).nvmQueue ++ [task] } j).weight H)
        fun j other => by rw [Function.update_of_ne other]
      simp only [Function.update_self, Station.weight_nvm] at here
      have paid : handWeight H (.nvm task :: rest) = nvmTaskWeight task + 1 + handWeight H rest :=
        List.sum_cons
      simp only [weight, walkLeft, setStation, hand]
      omega
  | @toBuffer idx task rest hand =>
      refine .inl ?_
      have here := sum_one (Finset.mem_univ idx)
        (f := fun j => (s.station j).weight H)
        (g := fun j => (Function.update s.station idx
          { s.station idx with bufferQueue := (s.station idx).bufferQueue ++ [task] } j).weight H)
        fun j other => by rw [Function.update_of_ne other]
      simp only [Function.update_self, Station.weight_buffer] at here
      have paid : handWeight H (.buffer idx task :: rest) =
          partWeight H task + 1 + handWeight H rest := List.sum_cons
      simp only [weight, walkLeft, setStation, hand]
      omega

theorem weight_ssd (step : SsdStep s idx t) :
    t.weight H submitQueueNum < s.weight H submitQueueNum := by
  cases step with
  | take poll queue =>
      refine weight_lt_of_station idx rfl rfl rfl rfl rfl rfl ?_
      simp only [Station.weight, poll, queue, SsdPhase.weight, List.length_cons]
      omega
  | stage execute =>
      refine weight_lt_of_station idx rfl rfl rfl rfl (ssdTaskStage_md ..) rfl ?_
      simp only [Station.weight, execute, SsdPhase.weight]
      omega
  | move staged =>
      refine weight_lt_of_station idx rfl rfl rfl rfl (ssdTaskMove_md ..) rfl ?_
      simp only [Station.weight, staged, SsdPhase.weight]
      omega
  | count moved =>
      refine weight_lt_of_station idx rfl rfl rfl rfl (ssdTaskCount_md ..) rfl ?_
      simp only [Station.weight, moved, SsdPhase.weight]
      omega

/-- The walks a migration begins with. -/
theorem walkLeft_begin (sized : (s.m.segment idx).hash.hashSize ≤ H) :
    ∑ t : Fin MIGRATE_THREAD_NUM, (MigratePc.pop t).toGo (s.m.segment idx).hash.hashSize ≤
      walkWeight H := by
  have each : ∀ t ∈ (Finset.univ : Finset (Fin MIGRATE_THREAD_NUM)),
      (MigratePc.pop t).toGo (s.m.segment idx).hash.hashSize ≤ H + 1 := fun t _ => by
    simp only [MigratePc.toGo]
    omega
  refine Nat.le_trans (Finset.sum_le_sum each) (Nat.le_of_eq ?_)
  rw [Finset.sum_const, Finset.card_univ, Fintype.card_fin, smul_eq_mul]
  rfl

/-- The worker takes a task; what it does for it, with an entry, weighs less than the task. -/
theorem weight_take (indexes : s.Indexes P) {task : IoTask} {station : Station} {pc : NvmPc}
    {md : Metadata} (poll : (s.station idx).nvm = .poll) (takes : Takes (s.station idx) task station)
    (own : OwnSegment idx s.m.md md)
    (less : ∀ w, (w = nvmTaskWeight task ∧ task ∈ (s.station idx).nvmQueue ∨
      w = partWeight H task ∧ task ∈ (s.station idx).bufferQueue) →
      pc.weight H + 10 * (md.segments idx).hash.entries.length <
        w + 10 * (s.m.segment idx).hash.entries.length) :
    weight H submitQueueNum
      { s.setStation idx { station with nvm := pc } with m := { s.m with md := md } } <
      s.weight H submitQueueNum := by
  refine weight_lt_of idx rfl rfl rfl rfl own.segments ?_
  obtain ⟨w, paid, is⟩ := Takes.weight takes poll pc (H := H)
  have lighter := less w is
  have walk : walkLeft
      { s.setStation idx { station with nvm := pc } with m := { s.m with md := md } } =
        s.walkLeft := by
    cases running : s.migration with
    | none => simp only [walkLeft, setStation, running]
    | some here =>
        obtain ⟨j, threads⟩ := here
        have other : j ≠ idx := by
          rintro rfl
          obtain ⟨task', migrating⟩ := (indexes.owner j).2 ⟨threads, running⟩
          rw [poll] at migrating
          cases migrating
        have same : md.segments j = s.m.md.segments j := own.segments j other
        simp only [walkLeft, setStation, running, Machine.segment, same]
  rw [walk]
  simp only [Machine.segment] at lighter ⊢
  omega

theorem weight_nvm (indexes : s.Indexes P) (fits : s.Fits) (some_block : 0 < P)
    (sized : ∀ j, (s.m.segment j).hash.hashSize ≤ H) (step : NvmStep s idx t)
    (ends : ∀ task, (s.station idx).nvm = .migrating task →
      ∃ pc, s.migration = some (idx, pc) ∧ ∀ thread, pc thread = .done) :
    t.weight H submitQueueNum < s.weight H submitQueueNum ∨
      Looks submitQueueNum s (.nvm idx) t := by
  have here := fits.station idx
  have own (at_ : (s.station idx).nvm = .poll) : Indexed s.m.md.perBlockNum (s.m.md.segments idx) :=
    indexes.own fun task => by rw [at_]; nofun
  cases step with
  | turn poll odd => exact .inr (.turn poll odd)
  | @nvmTask task _ poll takes type =>
      refine .inl (weight_take indexes poll takes (.same (own poll)) fun w is => ?_)
      rcases is with ⟨rfl, -⟩ | ⟨-, member⟩
      · show deedsWeight (nvmWorkerNvmTask task) + 1 + _ < deedsWeight (nvmWorkerNvmTask task) + 2 + _
        exact Nat.add_lt_add_right (by omega) _
      · rw [(here.buffer task member).type] at type
        cases type
  | noTask poll takes _ _ =>
      refine .inl (weight_take indexes poll takes (.same (own poll)) fun w is => ?_)
      have heavy : 1 < w := by
        rcases is with ⟨rfl, -⟩ | ⟨rfl, -⟩
        · simp only [nvmTaskWeight]
          omega
        · simp only [partWeight]
          omega
      exact Nat.add_lt_add_right heavy _
  | @ssdTask task _ md actions _ poll takes type result =>
      have inRange := Indexes.taken fits takes type
      refine .inl (weight_take indexes poll takes
        (nvmWorkerSsdTask_ownSegment (own poll) inRange result) fun w is => ?_)
      have entries := (nvmWorkerSsdTask_oneEntry (own poll) inRange result).entries
      have deeds := nvmWorkerSsdTask_weight result inRange
      rcases is with ⟨-, member⟩ | ⟨rfl, -⟩
      · rw [here.nvmQueue task member] at type
        cases type
      · simp only [NvmPc.weight, partWeight, Machine.segment]
        omega
  | @full task _ poll takes type result =>
      refine .inl (weight_take indexes poll takes (.same (own poll)) fun w is => ?_)
      rcases is with ⟨-, member⟩ | ⟨rfl, -⟩
      · rw [here.nvmQueue task member] at type
        cases type
      · refine Nat.add_lt_add_right ?_ _
        simp only [NvmPc.weight, partWeight]
        omega
  | postSsd doing =>
      refine .inl (weight_lt_of_station idx rfl rfl rfl rfl rfl rfl ?_)
      simp only [Station.weight, doing, NvmPc.weight, deedsWeight_cons, Deed.weight,
        List.length_append, List.length_singleton]
      omega
  | @act task a rest other doing =>
      refine .inl (weight_lt_of_station idx rfl rfl rfl rfl (perform_md s.m a) rfl ?_)
      have one : (Deed.act a).weight = 1 := by
        cases a with
        | postTaskToSsd posted => exact absurd rfl (other posted)
        | readFromBuffer | writeToBuffer | bufferClear | addRet | nvmWriteBlockCompleted => rfl
      simp only [Station.weight, doing, NvmPc.weight, deedsWeight_cons, one]
      omega
  | nvmRead doing =>
      refine .inl (weight_lt_of_station idx rfl rfl rfl rfl rfl rfl ?_)
      simp only [Station.weight, doing, NvmPc.weight, deedsWeight_cons, Deed.weight]
      omega
  | nvmWrite doing =>
      refine .inl (weight_lt_of_station idx rfl rfl rfl rfl rfl rfl ?_)
      simp only [Station.weight, doing, NvmPc.weight, deedsWeight_cons, Deed.weight]
      omega
  | finish doing =>
      refine .inl (weight_lt_of_station idx rfl rfl rfl rfl rfl rfl ?_)
      simp only [Station.weight, doing, NvmPc.weight]
      omega
  | beginMigration full free =>
      refine .inl (weight_lt_of idx rfl rfl rfl rfl (fun _ _ => rfl) ?_)
      have walk := walkLeft_begin (sized idx)
      simp only [Station.weight, full, NvmPc.weight, walkLeft, free]
      simp only [setStation] at walk ⊢
      omega
  | @endMigration task md actions _ migrating result =>
      obtain ⟨pc, running, all⟩ := ends task migrating
      have own := indexes.afterMigration some_block migrating running all result
      refine .inl (weight_lt_of idx rfl rfl rfl rfl own.segments ?_)
      obtain ⟨ok, empty⟩ := (indexes.emptying idx pc running).ended all
      have inRange := indexes.inRange idx task (.inr migrating)
      have size : (migrationEnd s.m idx).md.perBlockNum = P := indexes.perBlockNum
      obtain ⟨before, written⟩ := counted_eq_done result
      have outcome := redirectWriteAfterMigration_empty (migrationEnd s.m idx).md
        (size ▸ ok) (size ▸ some_block) empty inRange
      rw [written] at outcome
      have entries := (outcome.oneEntry (size ▸ ok)).entries
      rw [show ((migrationEnd s.m idx).md.segments idx).hash.entries = [] from empty] at entries
      obtain ⟨block, rfl⟩ := afterMigration_actions result
      have two : deedsWeight ([Action.writeToBuffer task.buf task.offset block task.opcode,
          .nvmWriteBlockCompleted task.len].map .act) = 2 := rfl
      simp only [Station.weight, migrating, NvmPc.weight, walkLeft, two, Machine.segment,
        List.length_nil] at entries ⊢
      omega

theorem weight_migrate {pc : Fin MIGRATE_THREAD_NUM → MigratePc}
    {next : MigrateState MIGRATE_THREAD_NUM} {thread : Fin MIGRATE_THREAD_NUM}
    (running : s.migration = some (idx, pc))
    (moved : Mixdk.migrateStep idx { m := s.m, pc := pc } thread = some next) :
    weight H submitQueueNum { s with m := next.m, migration := some (idx, next.pc) } <
      s.weight H submitQueueNum := by
  have shorter := aloneMeasure_lt moved
  obtain ⟨p', move, moves⟩ := migrateStep_eq_some moved
  refine weight_lt_of idx rfl rfl rfl (Function.update_eq_self idx s.station).symm
    move.others.2 ?_
  have size := move.size
  have walks := sum_one (Finset.mem_univ thread)
    (f := fun t => (pc t).toGo (s.m.segment idx).hash.hashSize)
    (g := fun t => (next.pc t).toGo (s.m.segment idx).hash.hashSize)
    fun t other => by rw [moves, Function.update_of_ne other]
  simp only [aloneMeasure, size] at shorter
  simp only [walkLeft, running, size]
  omega

/-- **Every step does something of what is left, or only looks.** -/
theorem weight_lt (indexes : s.Indexes P) (fits : s.Fits) (some_block : 0 < P)
    (sized : ∀ j, (s.m.segment j).hash.hashSize ≤ H) (polled : s.idx < submitQueueNum)
    {capacity : Nat} {turn : Turn} (stepped : s.step submitQueueNum capacity turn = some t) :
    t.weight H submitQueueNum < s.weight H submitQueueNum ∨ Looks submitQueueNum s turn t := by
  cases step_cases stepped with
  | front step => exact weight_front polled step
  | nvm idx is step =>
      subst is
      exact weight_nvm indexes fits some_block sized step fun task at_ => indexes.waited at_ stepped
  | ssd idx _ step => exact .inl (weight_ssd step)
  | migrate thread _ running moved result =>
      subst result
      exact .inl (weight_migrate running moved)

end

end Pipeline

end Mixdk
