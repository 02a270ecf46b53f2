/-
# Pipeline.Release -- additions to a counter that has been freed

`mixdk_read` frees its counter as soon as it has reached the length of the read.  By
conservation nothing but zeros is then still to be added to it.  An ssd_worker adds the
length of its task, which is not 0, and an nvm_worker that of an NVM task; but for an SSD
task an nvm_worker adds the number of blocks it found buffered, after it has posted the
others.  So as long as each part of a read has a buffered block, the addition that reaches
the length is the last one (`released_unused`).  Where a part has none, the nvm_worker adds
its zero to a counter that may be gone (`released_used`).
-/
import Mixdk.Pipeline.Batch

namespace Mixdk

open Transition

set_option autoImplicit false

/-! ## Additions -/

/-- The task the nvm_worker finds when it polls. -/
def Station.next (station : Station) : Option IoTask :=
  if station.odd then station.nvmQueue.head? else station.bufferQueue.head?

namespace Pipeline

/-- The counter an atomic addition goes to, if the next step of the thread is one. -/
def addsTo (s : Pipeline) : Turn → Option Nat
  | .nvm idx =>
      match (s.station idx).nvm with
      | .doing _ (.act (.addRet ret _) :: _) => some ret
      | _ => none
  | .ssd idx =>
      match (s.station idx).ssd with
      | .moved task =>
          if task.opcode &&& (MIX_READ ||| MIX_WRITE) = MIX_READ then some task.ret else none
      | _ => none
  | .post _ | .free _ _ | .scheduler | .migrate _ => none

/-- A part of a read that an nvm_worker takes has a buffered block. -/
def ReadBuffered (s : Pipeline) : Turn → Prop
  | .nvm idx => ∀ task ∈ (s.station idx).next, (s.station idx).nvm = .poll →
      task.type = SSD_TASK → opCode task = MIX_READ →
        ∃ i < task.len, mixBufferBlockTest s.m.md (task.offset + i) idx ≠ -1
  | .post _ | .free _ _ | .scheduler | .ssd _ | .migrate _ => True

instance (s : Pipeline) : DecidablePred s.ReadBuffered
  | .nvm idx => inferInstanceAs (Decidable (∀ task ∈ (s.station idx).next,
      (s.station idx).nvm = .poll → task.type = SSD_TASK → opCode task = MIX_READ →
        ∃ i < task.len, mixBufferBlockTest s.m.md (task.offset + i) idx ≠ -1))
  | .post _ | .free _ _ | .scheduler | .ssd _ | .migrate _ => .isTrue trivial

theorem Takes.next {station station' : Station} {task : IoTask}
    (takes : Takes station task station') : task ∈ station.next := by
  unfold Station.next
  cases takes with
  | nvm odd queue => simp [odd, queue]
  | buffer even queue => simp [even, queue]

end Pipeline

/-- What a read finds in the buffer, it delivers from there. -/
theorem Delivers.hits_pos {md : Metadata} {task : IoTask} {idx : SegIdx} {n i : Nat}
    {actions : List Action} (delivers : Delivers md task idx n i actions) {k : Nat} (low : i ≤ k)
    (high : k < n) (found : mixBufferBlockTest md (task.offset + k) idx ≠ -1) :
    0 < hits actions := by
  induction delivers with
  | done => omega
  | buffer =>
      rw [hits_read]
      exact Nat.succ_pos _
  | @ssd i len _ _ _ absent _ ih =>
      rw [hits_post]
      apply ih
      by_contra before
      exact found (absent k low (by omega))

/-! ## Zeros -/

section

variable (zero : Nat → Prop)

/-- A read of no blocks has one of these counters. -/
def IoTask.ZeroOnly (task : IoTask) : Prop := opCode task = MIX_READ → task.len = 0 → zero task.ret

/-- A zero is added to one of these counters. -/
def DeedsZeroOnly (deeds : List Deed) : Prop :=
  ∀ ret, Deed.act (.addRet ret 0) ∈ deeds → zero ret

def NvmPc.ZeroOnly : NvmPc → Prop
  | .doing _ deeds => DeedsZeroOnly zero deeds
  | .poll | .full _ | .migrating _ => True

structure Station.ZeroOnly (station : Station) : Prop where
  queued : ∀ task ∈ station.nvmQueue, task.ZeroOnly zero
  doing : station.nvm.ZeroOnly zero

/-- Zeros are added to these counters only, now and later. -/
structure Pipeline.ZeroOnly (submitQueueNum : Nat) (s : Pipeline) : Prop where
  toPost : ∀ i < submitQueueNum, ∀ request ∈ s.toPost i, (request.task i).ZeroOnly zero
  submitted : ∀ i, ∀ task ∈ s.submitQueue i, task.ZeroOnly zero
  hand : ∀ task, .nvm task ∈ s.hand → task.ZeroOnly zero
  station : ∀ idx, (s.station idx).ZeroOnly zero

end

section

variable {zero : Nat → Prop} {task : IoTask} {deed : Deed} {rest : List Deed}

theorem DeedsZeroOnly.tail (deeds : DeedsZeroOnly zero (deed :: rest)) : DeedsZeroOnly zero rest :=
  fun ret member => deeds ret (List.mem_cons_of_mem _ member)

theorem nvmWorkerNvmTask_zeroOnly (only : task.ZeroOnly zero) :
    DeedsZeroOnly zero (nvmWorkerNvmTask task) := by
  intro ret member
  unfold nvmWorkerNvmTask at member
  split at member
  next read =>
    have last : ret = task.ret ∧ 0 = task.len := by simpa using member
    exact last.1 ▸ only read last.2.symm
  next => split at member <;> simp at member

/-- With a block of it buffered, an SSD task adds no zero. -/
theorem SsdTaskActions.zeroOnly {md : Metadata} {idx : SegIdx} {actions : List Action}
    (does : SsdTaskActions md task idx actions)
    (buffered : opCode task = MIX_READ →
      ∃ i < task.len, mixBufferBlockTest md (task.offset + i) idx ≠ -1) :
    DeedsZeroOnly zero (actions.map .act) := by
  intro ret member
  obtain ⟨a, inside, same⟩ := List.mem_map.1 member
  cases same
  cases does with
  | @read reads op delivers =>
      obtain ⟨i, high, found⟩ := buffered op
      have some_hit : 0 < hits reads := delivers.hits_pos (Nat.zero_le i) high found
      rcases List.mem_append.1 inside with early | last
      · exact absurd trivial (delivers.copies _ (List.mem_map_of_mem early))
      · have none : ret = task.ret ∧ 0 = hits reads := by simpa using last
        omega
  | small => simp at inside
  | large => simp at inside
  | nothing => cases inside

theorem handleTask_fields (task : IoTask) : (handleTask task).opcode = task.opcode ∧
    (handleTask task).len = task.len ∧ (handleTask task).ret = task.ret := by
  unfold handleTask
  split
  · exact ⟨rfl, rfl, rfl⟩
  · split <;> exact ⟨rfl, rfl, rfl⟩

theorem handleTask_zeroOnly (only : task.ZeroOnly zero) : (handleTask task).ZeroOnly zero := by
  obtain ⟨opcode, len, ret⟩ := handleTask_fields task
  unfold IoTask.ZeroOnly opCode
  rw [opcode, len, ret]
  exact only

end

namespace Pipeline.ZeroOnly

variable {zero : Nat → Prop} {submitQueueNum : Nat} {s t : Pipeline} {idx : SegIdx}

theorem stations (only : s.ZeroOnly zero submitQueueNum) {station : Station}
    (here : station.ZeroOnly zero) (j : SegIdx) : (Function.update s.station idx station j).ZeroOnly zero :=
  (Function.forall_update_iff s.station fun _ st => st.ZeroOnly zero).2
    ⟨here, fun j _ => only.station j⟩ j

theorem front (only : s.ZeroOnly zero submitQueueNum) {turn : Turn}
    (step : FrontStep submitQueueNum s turn t) : t.ZeroOnly zero submitQueueNum := by
  cases step with
  | @post i request rest next queue =>
      have waiting := only.toPost i queue
      rw [next] at waiting
      obtain ⟨first, rest⟩ := List.forall_mem_cons.1 waiting
      exact
        { only with
          toPost := (Function.forall_update_iff s.toPost fun j list => j < submitQueueNum →
              ∀ r ∈ list, (r.task j).ZeroOnly zero).2 ⟨fun _ => rest, fun j _ => only.toPost j⟩
          submitted := (Function.forall_update_iff s.submitQueue fun _ list => ∀ task ∈ list,
              task.ZeroOnly zero).2
            ⟨List.forall_mem_append.2 ⟨only.submitted i, List.forall_mem_singleton.2 first⟩,
              fun j _ => only.submitted j⟩ }
  | free | skip => exact { only with }
  | @schedule task rest hand queue =>
      have waiting := only.submitted s.idx
      rw [queue] at waiting
      obtain ⟨first, rest⟩ := List.forall_mem_cons.1 waiting
      refine
        { only with
          submitted := (Function.forall_update_iff s.submitQueue fun _ list => ∀ task ∈ list,
              task.ZeroOnly zero).2 ⟨rest, fun j _ => only.submitted j⟩
          hand := ?_ }
      intro posted member
      have same : posted = handleTask task := by
        unfold doSchedule at member
        split at member
        · simpa using member
        · split at member <;> simp at member
      exact same ▸ handleTask_zeroOnly first
  | @toNvm task rest hand inside =>
      have posts := only.hand
      rw [hand] at posts
      have here := only.station ⟨task.queueIdx, inside⟩
      exact
        { only with
          hand := fun posted member => posts posted (List.mem_cons_of_mem _ member)
          station := only.stations { here with
            queued := List.forall_mem_append.2
              ⟨here.queued, List.forall_mem_singleton.2 (posts task List.mem_cons_self)⟩ } }
  | @toBuffer idx task rest hand =>
      have posts := only.hand
      rw [hand] at posts
      exact
        { only with
          hand := fun posted member => posts posted (List.mem_cons_of_mem _ member)
          station := only.stations { only.station idx with } }

/-- The task taken from the NVM queue, and the rest of the queue. -/
theorem takes (only : s.ZeroOnly zero submitQueueNum) (fits : s.Fits) {task : IoTask}
    {station : Station} (takes : Takes (s.station idx) task station) :
    (task.type = NVM_TASK → task.ZeroOnly zero) ∧
      ∀ {pc : NvmPc}, pc.ZeroOnly zero → ({ station with nvm := pc } : Station).ZeroOnly zero := by
  have here := only.station idx
  cases takes with
  | nvm odd queue =>
      obtain ⟨first, rest⟩ := List.forall_mem_cons.1 (queue ▸ here.queued)
      exact ⟨fun _ => first, fun doing => ⟨rest, doing⟩⟩
  | buffer even queue =>
      have part : Part idx task := (fits.station idx).buffer task (queue ▸ List.mem_cons_self)
      refine ⟨fun type => ?_, fun doing => ⟨here.queued, doing⟩⟩
      rw [part.type] at type
      cases type

theorem rest (only : s.ZeroOnly zero submitQueueNum) {task : IoTask} {deed : Deed} {rest : List Deed}
    (doing : (s.station idx).nvm = .doing task (deed :: rest)) : DeedsZeroOnly zero rest := by
  have here := (only.station idx).doing
  rw [doing] at here
  exact DeedsZeroOnly.tail here

theorem nvm (only : s.ZeroOnly zero submitQueueNum) (fits : s.Fits)
    (buffered : s.ReadBuffered (.nvm idx)) (step : NvmStep s idx t) : t.ZeroOnly zero submitQueueNum := by
  have here := only.station idx
  cases step with
  | turn => exact { only with station := only.stations { here with } }
  | nvmTask _ takes type =>
      obtain ⟨task, station⟩ := only.takes fits takes
      exact { only with
        station := only.stations (station (nvmWorkerNvmTask_zeroOnly (task type))) }
  | ssdTask poll takes type result =>
      have part : Part idx _ := (fits.takes takes).1.resolve_left (by rw [type]; decide)
      have actions := nvmWorkerSsdTask_actions part.inRange result
      exact { only with
        station := only.stations ((only.takes fits takes).2
          (actions.zeroOnly (buffered _ takes.next poll type))) }
  | full _ takes =>
      exact { only with station := only.stations ((only.takes fits takes).2 trivial) }
  | noTask _ takes =>
      exact { only with station := only.stations ((only.takes fits takes).2 nofun) }
  | postSsd doing | act _ doing | nvmRead doing | nvmWrite doing =>
      exact { only with station := only.stations { here with doing := only.rest doing } }
  | finish | beginMigration =>
      exact { only with station := only.stations { here with doing := trivial } }
  | endMigration migrating result =>
      obtain ⟨block, rfl⟩ := afterMigration_actions result
      refine { only with station := only.stations { here with doing := ?_ } }
      intro ret member
      simp at member

theorem ssd (only : s.ZeroOnly zero submitQueueNum) (step : SsdStep s idx t) :
    t.ZeroOnly zero submitQueueNum := by
  have here := only.station idx
  cases step <;> exact { only with station := only.stations { here with } }

theorem step (only : s.ZeroOnly zero submitQueueNum) (fits : s.Fits) {turn : Turn}
    (buffered : s.ReadBuffered turn) (cases_ : StepCases submitQueueNum s turn t) : t.ZeroOnly zero submitQueueNum := by
  cases cases_ with
  | front step => exact only.front step
  | nvm idx is step => exact only.nvm fits (is ▸ buffered) step
  | ssd idx _ step => exact only.ssd step
  | migrate _ _ _ _ result => exact result ▸ { only with }

end Pipeline.ZeroOnly

/-! ## Freeing -/

theorem Machine.ret_le_addRet (m : Machine) (ret n r : Nat) : m.ret r ≤ (m.addRet ret n).ret r := by
  by_cases same : r = ret
  · subst same
    simp [addRet]
  · simp [addRet, same]

namespace Pipeline

variable {submitQueueNum : Nat} {requests : Nat → List Request} {s t : Pipeline} {idx : SegIdx}

/-- A counter never goes down. -/
theorem ret_le {turn : Turn} (cases_ : StepCases submitQueueNum s turn t) (r : Nat) :
    s.m.ret r ≤ t.m.ret r := by
  have same {m : Machine} (counters : m.counters = s.m.counters) : s.m.ret r ≤ m.ret r :=
    Nat.le_of_eq (congrFun (congrArg Prod.fst counters.symm) r)
  cases cases_ with
  | front step => cases step <;> exact Nat.le_refl _
  | nvm idx _ step =>
      cases step with
      | @act _ a =>
          cases a with
          | addRet ret n => exact s.m.ret_le_addRet ret n r
          | postTaskToSsd | readFromBuffer | writeToBuffer | bufferClear
          | nvmWriteBlockCompleted => exact Nat.le_refl _
      | turn | nvmTask | ssdTask | full | noTask | postSsd | nvmRead | nvmWrite | finish
      | beginMigration | endMigration => exact Nat.le_refl _
  | ssd idx _ step =>
      cases step with
      | take => exact Nat.le_refl _
      | @stage task _ => exact same (ssdTaskStage_counters s.m idx task)
      | @move task _ => exact same (ssdTaskMove_counters s.m idx task)
      | @count task _ =>
          show s.m.ret r ≤ (s.m.ssdTaskCount task).ret r
          unfold Machine.ssdTaskCount
          dsimp only
          split
          · exact s.m.ret_le_addRet task.ret task.len r
          · split <;> exact Nat.le_refl _
  | migrate thread _ _ moved result =>
      subst result
      exact same (migrateStep_counters moved)

/-- Only posted reads are freed, and only when they are completed. -/
structure Freed (submitQueueNum : Nat) (requests : Nat → List Request) (s : Pipeline) : Prop where
  toPost : ∀ i, ∀ request ∈ s.toPost i, request ∈ requests i
  posted : ∀ i, ∀ request ∈ s.history.posted i, request ∈ batch submitQueueNum requests
  released : ∀ ret ∈ s.history.released, ∃ dst len offset flags type,
    .read dst len offset flags ret type ∈ batch submitQueueNum requests ∧ len ≤ s.m.ret ret

theorem Freed.keep (freed : s.Freed submitQueueNum requests) (toPost : t.toPost = s.toPost)
    (posted : t.history.posted = s.history.posted)
    (released : t.history.released = s.history.released) (grows : ∀ r, s.m.ret r ≤ t.m.ret r) :
    t.Freed submitQueueNum requests where
  toPost := toPost.symm ▸ freed.toPost
  posted := posted.symm ▸ freed.posted
  released := by
    intro ret member
    rw [released] at member
    obtain ⟨dst, len, offset, flags, type, inBatch, completed⟩ := freed.released ret member
    exact ⟨dst, len, offset, flags, type, inBatch, Nat.le_trans completed (grows ret)⟩

theorem Freed.step (freed : s.Freed submitQueueNum requests) {turn : Turn}
    (cases_ : StepCases submitQueueNum s turn t) : t.Freed submitQueueNum requests := by
  have grows := ret_le cases_
  cases cases_ with
  | front step =>
      cases step with
      | @post i request rest next queue =>
          have waiting := freed.toPost i
          rw [next] at waiting
          obtain ⟨first, rest⟩ := List.forall_mem_cons.1 waiting
          have inBatch : request ∈ batch submitQueueNum requests :=
            List.mem_flatMap.2 ⟨i, List.mem_range.2 queue, first⟩
          exact
            { freed with
              toPost := (Function.forall_update_iff s.toPost fun j list => ∀ r ∈ list,
                  r ∈ requests j).2 ⟨rest, fun j _ => freed.toPost j⟩
              posted := (Function.forall_update_iff s.history.posted fun _ list => ∀ r ∈ list,
                  r ∈ batch submitQueueNum requests).2
                ⟨List.forall_mem_append.2 ⟨freed.posted i, List.forall_mem_singleton.2 inBatch⟩,
                  fun j _ => freed.posted j⟩ }
      | @free i dst len offset flags ret type posted completed =>
          exact
            { freed with
              released := List.forall_mem_cons.2
                ⟨⟨dst, len, offset, flags, type, freed.posted i _ posted, completed⟩,
                  freed.released⟩ }
      | skip | schedule | toNvm | toBuffer => exact freed.keep rfl rfl rfl grows
  | nvm idx _ step =>
      obtain ⟨toPost, -, posted, released⟩ := step.calls
      exact freed.keep toPost posted released grows
  | ssd idx _ step =>
      obtain ⟨toPost, -, posted, released⟩ := step.calls
      exact freed.keep toPost posted released grows
  | migrate _ _ _ _ result => exact freed.keep (result ▸ rfl) (result ▸ rfl) (result ▸ rfl) grows

end Pipeline

/-- A counter belongs to one read. -/
theorem read_unique {requests : List Request}
    (distinct : (requests.filterMap Request.ret?).Nodup) {a b : Request} (inside : a ∈ requests)
    (inside' : b ∈ requests) {ret : Nat} (counter : a.ret? = some ret)
    (counter' : b.ret? = some ret) : a = b := by
  obtain ⟨before, after, rfl⟩ := List.append_of_mem inside
  simp only [List.filterMap_append, List.filterMap_cons, counter] at distinct
  have absent : ret ∉ before.filterMap Request.ret? ∧ ret ∉ after.filterMap Request.ret? := by
    grind
  rcases List.mem_append.1 inside' with early | late
  · exact absurd (List.mem_filterMap.2 ⟨b, early, counter'⟩) absent.1
  · rcases List.mem_cons.1 late with same | late
    · exact same.symm
    · exact absurd (List.mem_filterMap.2 ⟨b, late, counter'⟩) absent.2

/-- The counters of the reads of no blocks. -/
def ZeroRead (requests : List Request) (ret : Nat) : Prop :=
  ∃ dst offset flags type, .read dst 0 offset flags ret type ∈ requests

theorem ZeroRead.of_member {requests : List Request} {request : Request} (i : Nat)
    (member : request ∈ requests) : (request.task i).ZeroOnly (ZeroRead requests) := by
  cases request with
  | read dst len offset flags ret type =>
      rintro - (rfl : len = 0)
      exact ⟨dst, offset, flags, type, member⟩
  | write src len offset flags type =>
      intro read
      exact absurd read (write_opCode src len offset flags type i)

/-- **The addition that completes a read is the last one, where each part has a buffered block.** -/
theorem released_unused {submitQueueNum capacity : Nat} {m : Machine} {region : Nat → Block}
    {requests : Nat → List Request} (regional : ∀ i, ∀ request ∈ requests i, request.Regional)
    (distinct : ((batch submitQueueNum requests).filterMap Request.ret?).Nodup)
    {turns : List Pipeline.Turn} {s : Pipeline}
    (run : Run (Pipeline.step submitQueueNum capacity) Pipeline.ReadBuffered
      (.start m region requests) turns s)
    {dst len offset flags ret type : Nat} (some_block : 1 ≤ len)
    (member : .read dst len offset flags ret type ∈ batch submitQueueNum requests)
    (released : ret ∈ s.history.released) (turn : Pipeline.Turn) : s.addsTo turn ≠ some ret := by
  obtain ⟨accounted, freed, only⟩ : s.Accounted submitQueueNum requests ∧
      s.Freed submitQueueNum requests ∧
      s.ZeroOnly (ZeroRead (batch submitQueueNum requests)) submitQueueNum := by
    refine run.invariant (I := fun s => s.Accounted submitQueueNum requests ∧
      s.Freed submitQueueNum requests ∧
      s.ZeroOnly (ZeroRead (batch submitQueueNum requests)) submitQueueNum) ?_
      ⟨Pipeline.start_accounted m region regional, ?_, ?_⟩
    · rintro s turn t ⟨accounted, freed, only⟩ buffered stepped
      have cases_ := Pipeline.step_cases stepped
      exact ⟨accounted.step cases_, freed.step cases_, only.step accounted.fits buffered cases_⟩
    · exact ⟨fun _ _ => id, fun _ => nofun, nofun⟩
    · refine ⟨fun i below request inside => ?_, fun _ => nofun, nofun, fun _ => ⟨nofun, trivial⟩⟩
      exact .of_member i (List.mem_flatMap.2 ⟨i, List.mem_range.2 below, inside⟩)
  -- the read has reached its length, so nothing is owed to its counter
  obtain ⟨dst', len', offset', flags', type', member', completed⟩ := freed.released ret released
  cases read_unique distinct member member' rfl rfl
  have nothing idx : (s.station idx).due (.added ret) = 0 := by
    have most : (Request.read dst len offset flags ret type).due (.added ret) ≤ len := by
      simp only [Request.due, taskDue, blocksDue_added]
      split
      · exact Nat.le_refl _
      · exact Nat.zero_le _
    have below := accounted.station_le idx (.added ret)
    rw [batch_read distinct member rfl rfl] at below
    change s.m.ret ret + _ ≤ _ at below
    omega
  intro adds
  cases turn with
  | post | free | scheduler | migrate => cases adds
  | nvm idx =>
      have here := nothing idx
      simp only [Pipeline.addsTo] at adds
      split at adds
      next task r n rest doing =>
        cases adds
        simp only [Station.due, doing, NvmPc.due, deedsDue_cons, deedDue, Pi.add_apply,
          Pi.smul_apply, one_apply, if_true, smul_eq_mul, Nat.mul_one] at here
        obtain rfl : n = 0 := by omega
        have zero := (only.station idx).doing
        rw [doing] at zero
        obtain ⟨dst', offset', flags', type', member'⟩ := zero ret List.mem_cons_self
        cases read_unique distinct member member' rfl rfl
        omega
      next => cases adds
  | ssd idx =>
      have here := nothing idx
      simp only [Pipeline.addsTo] at adds
      split at adds
      next task moved =>
        split at adds
        next read =>
          cases adds
          have stripe : InStripe idx task := (accounted.fits.station idx).ssd task (by
            simp [Station.ssdTasks, moved, SsdPhase.tasks])
          have := stripe.some_block
          simp only [Station.due, moved, SsdPhase.due, countsDue, read, if_true, Pi.add_apply,
            Pi.smul_apply, one_apply, smul_eq_mul, Nat.mul_one] at here
          omega
        next => cases adds
      next => cases adds

/-- A block is written, and read from the buffer. -/
theorem buffered_unused : ∃ turns s, Run (Pipeline.step 1 4) Pipeline.ReadBuffered
      (.fresh fun i => if i = 0 then
        [.write 4096 1 SCHEDULER_THRESHOLD 0 0, .read 0 1 SCHEDULER_THRESHOLD 0 8 0] else [])
      turns s ∧
    8 ∈ s.history.released ∧ ∀ turn, s.addsTo turn ≠ some 8 := by
  have freed : ((exec (fun s turn =>
        if decide (s.ReadBuffered turn) then Pipeline.step 1 4 s turn else none)
      (.fresh fun i => if i = 0 then
        [.write 4096 1 SCHEDULER_THRESHOLD 0 0, .read 0 1 SCHEDULER_THRESHOLD 0 8 0] else [])
      ([.post 0, .post 0] ++ List.replicate 4 .scheduler ++ List.replicate 9 (.nvm 0) ++
        [.free 0 (.read 0 1 SCHEDULER_THRESHOLD 0 8 0)])).map fun s => s.history.released) =
      some [8] := by
    decide +kernel
  obtain ⟨s, ran, released⟩ := Option.map_eq_some_iff.1 freed
  have run := Run.of_checked (fun _ _ => of_decide_eq_true) ran
  have gone : 8 ∈ s.history.released := released ▸ List.mem_singleton_self 8
  have member : Request.read 0 1 SCHEDULER_THRESHOLD 0 8 0 ∈ batch 1 fun i => if i = 0 then
      [.write 4096 1 SCHEDULER_THRESHOLD 0 0, .read 0 1 SCHEDULER_THRESHOLD 0 8 0] else [] := by
    decide
  refine ⟨_, s, run, gone, released_unused ?_ (by decide) run (Nat.le_refl 1) member gone⟩
  intro i request member
  split at member
  · rcases List.mem_pair.1 member with rfl | rfl
    · exact .inr (by decide)
    · exact .inr (by decide)
  · cases member

/-- The block is not buffered: the nvm_worker posts it to the SSD, the ssd_worker delivers and
counts it, the caller frees the counter, and the nvm_worker adds 0 to it. -/
theorem released_used : ∃ s t, exec (Pipeline.step 1 4)
      (.fresh fun i => if i = 0 then [.read 0 1 SCHEDULER_THRESHOLD 0 8 0] else [])
      ([.post 0, .scheduler, .scheduler, .nvm 0, .nvm 0] ++ List.replicate 4 (.ssd 0) ++
        [.free 0 (.read 0 1 SCHEDULER_THRESHOLD 0 8 0)]) = some s ∧
    8 ∈ s.history.released ∧ s.addsTo (.nvm 0) = some 8 ∧ s.step 1 4 (.nvm 0) = some t := by
  have freed : ((exec (Pipeline.step 1 4)
      (.fresh fun i => if i = 0 then [.read 0 1 SCHEDULER_THRESHOLD 0 8 0] else [])
      ([.post 0, .scheduler, .scheduler, .nvm 0, .nvm 0] ++ List.replicate 4 (.ssd 0) ++
        [.free 0 (.read 0 1 SCHEDULER_THRESHOLD 0 8 0)])).map fun s =>
          (s.history.released, s.addsTo (.nvm 0), (s.step 1 4 (.nvm 0)).isSome)) =
      some ([8], some 8, true) := by
    decide +kernel
  obtain ⟨s, ran, state⟩ := Option.map_eq_some_iff.1 freed
  simp only [Prod.mk.injEq] at state
  obtain ⟨t, stepped⟩ := Option.isSome_iff_exists.1 state.2.2
  exact ⟨s, t, ran, state.1 ▸ List.mem_singleton_self 8, state.2.1, stepped⟩

end Mixdk
