/-
# Serial.Linear -- MIXDK is a linearizable disk

The callers see requests posted and reads returned.  `callHistory` is what they see of a run, with
the blocks that each read has in its buffer when it returns.  Whatever the threads do, it is the
history of a disk at which each request takes effect at one point between its post and its return
(`pipeline_linearizable`): when the scheduler takes it off its submit queue.  A write has no return
of its own, `mixdk_write` only posts it.

A request of no blocks can return before the scheduler has seen it.  It takes effect when it is
posted.
-/
import Mathlib.Algebra.Order.BigOperators.Group.Finset
import Mixdk.Lib.Linearizable
import Mixdk.Serial.Reads

namespace Mixdk

open Transition Linear

set_option autoImplicit false

/-! ## The calls of a disk -/

/-- A request as a disk has it. -/
inductive DiskCall
  | read (offset len : Nat)
  | write (offset : Nat) (data : List Block)

/-- Its answer, and the disk after it. -/
def DiskCall.run (disk : Nat → Block) : DiskCall → List Block × (Nat → Block)
  | .read offset len => ((List.range len).map fun j => disk (offset + j), disk)
  | .write offset data =>
      ([], fun b => if offset ≤ b then (data[b - offset]?).getD (disk b) else disk b)

def DiskCall.Allows (disk : Nat → Block) (call : DiskCall) (answer : List Block)
    (disk' : Nat → Block) : Prop :=
  call.run disk = (answer, disk')

/-- The blocks of a buffer. -/
def blocksOf (mem : Mem) (buf len : Nat) : List Block :=
  (List.range len).map fun j => mem.load (buf + j * BLOCK_SIZE)

def Request.len : Request → Nat
  | .read _ len .. | .write _ len .. => len

def Request.call (mem : Mem) : Request → DiskCall
  | .read _ len offset .. => .read offset len
  | .write src len offset .. => .write offset (blocksOf mem src len)

/-- What a request that is done has in its buffer for the caller. -/
def Request.answer (mem : Mem) : Request → List Block
  | .read dst len .. => blocksOf mem dst len
  | .write .. => []

section

variable {requests : Nat → List Request} {submitQueueNum capacity : Nat}

theorem blocksOf_congr {mem mem' : Mem} {buf len : Nat}
    (same : ∀ a, buf ≤ a ∧ a < buf + len * BLOCK_SIZE → mem a = mem' a) :
    blocksOf mem buf len = blocksOf mem' buf len := by
  refine List.map_congr_left fun j member => funext fun i => ?_
  have bound := Nat.mul_le_mul_right BLOCK_SIZE (Nat.succ_le_of_lt (List.mem_range.1 member))
  rw [Nat.succ_mul] at bound
  have small := i.isLt
  exact same (buf + j * BLOCK_SIZE + i) ⟨by omega, by omega⟩

theorem write_run (disk : Nat → Block) (offset len : Nat) (data : Nat → Block) :
    (DiskCall.write offset ((List.range len).map data)).run disk =
      ([], setBlocks disk offset len data) := by
  refine Prod.ext rfl (funext fun b => ?_)
  dsimp only [DiskCall.run]
  by_cases inside : offset ≤ b ∧ b < offset + len
  · have below : b - offset < len := by omega
    rw [setBlocks_inside inside.1 inside.2, if_pos inside.1, List.getElem?_map,
      List.getElem?_range below]
    rfl
  · rw [setBlocks_outside inside]
    split
    next low =>
      have above : len ≤ b - offset := by omega
      rw [List.getElem?_eq_none (by simpa using above)]
      rfl
    next => rfl

theorem Request.call_empty {request : Request} (empty : request.len = 0) (mem mem' : Mem)
    (disk : Nat → Block) : (request.call mem).run disk = (request.answer mem', disk) := by
  cases request with
  | read dst len offset flags ret type =>
      obtain rfl : len = 0 := empty
      rfl
  | write src len offset flags type =>
      obtain rfl : len = 0 := empty
      exact (write_run disk offset 0 _).trans (by rw [setBlocks_zero]; rfl)

/-- In an order of requests, each does what its call does where it stands; and what it has in its
buffer stays there. -/
theorem Request.Plain.call_run {request : Request} (plain : request.Plain) (i : Nat) {d : Disk}
    {before after : List IoTask}
    (separate : (before ++ request.task i :: after).Pairwise IoTask.Separate) :
    (request.call d.mem).run (before.foldl Disk.handle d).block =
      (request.answer ((before ++ request.task i :: after).foldl Disk.handle d).mem,
        ((before.foldl Disk.handle d).handle (request.task i)).block) := by
  obtain ⟨-, own, across⟩ := List.pairwise_append.1 separate
  have later := (List.pairwise_cons.1 own).1
  cases request with
  | read dst len offset flags ret type =>
      have read : opCode (Request.task i (.read dst len offset flags ret type)) = MIX_READ :=
        opCode_flags plain.1
      refine Prod.ext ?_ ?_
      · have kept : blocksOf ((before ++ Request.task i (.read dst len offset flags ret type) ::
            after).foldl Disk.handle d).mem dst len =
          blocksOf ((before.foldl Disk.handle d).handle
            (Request.task i (.read dst len offset flags ret type))).mem dst len := by
          refine blocksOf_congr fun a inside => ?_
          rw [List.foldl_append, List.foldl_cons]
          exact Disk.foldl_mem _ fun t member op => (later t member).unread op inside
        refine Eq.trans ?_ kept.symm
        refine List.map_congr_left fun j member => ?_
        have below := List.mem_range.1 member
        rw [Disk.handle_read _ read]
        exact (Mem.load_storeBlocks _ dst
          (fun j => (before.foldl Disk.handle d).block (offset + j)) below).symm
      · rw [Disk.handle_read _ read]
        rfl
  | write src len offset flags type =>
      have write : opCode (Request.task i (.write src len offset flags type)) = MIX_WRITE :=
        opCode_flags plain.1
      have source : blocksOf d.mem src len =
          blocksOf (before.foldl Disk.handle d).mem src len := by
        refine blocksOf_congr fun a inside => (Disk.foldl_mem _ fun t member op => ?_).symm
        exact (across t member _ List.mem_cons_self).symm.unread op inside
      rw [Disk.handle_write _ write]
      exact (congrArg (fun data => (DiskCall.write offset data).run _) source).trans
        (write_run _ offset len _)

end

namespace Pipeline

/-! ## The submit queues -/

section

variable {submitQueueNum capacity : Nat} {requests : Nat → List Request} {s t : Pipeline}

/-- The submit queues hold the end of what has been posted to them. -/
structure Queued (submitQueueNum : Nat) (requests : Nat → List Request) (s : Pipeline) : Prop where
  posted : ∀ i, s.history.posted i ++ s.toPost i = requests i
  waiting : ∀ i, s.submitQueue i <:+ (s.history.posted i).map (Request.task i)
  inUse : ∀ i, ∀ request ∈ s.history.posted i, i < submitQueueNum

theorem start_queued (m : Machine) (region : Nat → Block) :
    (start m region requests).Queued submitQueueNum requests where
  posted := fun _ => rfl
  waiting := fun _ => List.suffix_rfl
  inUse := fun _ _ member => nomatch member

theorem Queued.keep (queued : s.Queued submitQueueNum requests) (toPost : t.toPost = s.toPost)
    (submitQueue : t.submitQueue = s.submitQueue)
    (posted : t.history.posted = s.history.posted) : t.Queued submitQueueNum requests where
  posted := by
    rw [toPost, posted]
    exact queued.posted
  waiting := by
    rw [submitQueue, posted]
    exact queued.waiting
  inUse := by
    rw [posted]
    exact queued.inUse

theorem Queued.step (queued : s.Queued submitQueueNum requests) {turn : Turn}
    (cases_ : StepCases submitQueueNum s turn t) : t.Queued submitQueueNum requests := by
  cases cases_ with
  | front step =>
      cases step with
      | @post i request rest next queue =>
          refine ⟨fun j => ?_, fun j => ?_, fun j r member => ?_⟩
          · have before := queued.posted j
            dsimp only
            by_cases same : j = i
            · subst same
              rw [next] at before
              rw [Function.update_self, Function.update_self, List.append_assoc]
              exact before
            · rw [Function.update_of_ne same, Function.update_of_ne same]
              exact before
          · have before := queued.waiting j
            dsimp only
            by_cases same : j = i
            · subst same
              obtain ⟨front, whole⟩ := before
              rw [Function.update_self, Function.update_self, List.map_append, ← whole]
              exact ⟨front, (List.append_assoc ..).symm⟩
            · rw [Function.update_of_ne same, Function.update_of_ne same]
              exact before
          · dsimp only at member
            by_cases same : j = i
            · exact same ▸ queue
            · rw [Function.update_of_ne same] at member
              exact queued.inUse j r member
      | @schedule task rest hand queue =>
          refine ⟨queued.posted, fun j => ?_, queued.inUse⟩
          have before := queued.waiting j
          dsimp only
          by_cases same : j = s.idx
          · subst same
            rw [queue] at before
            rw [Function.update_self]
            exact (List.suffix_cons task rest).trans before
          · rw [Function.update_of_ne same]
            exact before
      | free | skip | toNvm | toBuffer => exact queued.keep rfl rfl rfl
  | nvm idx is step =>
      obtain ⟨toPost, submitQueue, posted, -⟩ := step.calls
      exact queued.keep toPost submitQueue posted
  | ssd idx is step =>
      obtain ⟨toPost, submitQueue, posted, -⟩ := step.calls
      exact queued.keep toPost submitQueue posted
  | migrate thread is migration moved result =>
      subst result
      exact queued.keep rfl rfl rfl

/-- How many tasks of submit queue `i` the scheduler has taken. -/
def takenFrom (s : Pipeline) (i : Nat) : Nat :=
  (s.history.posted i).length - (s.submitQueue i).length

theorem Queued.length_le (queued : s.Queued submitQueueNum requests) (i : Nat) :
    (s.submitQueue i).length ≤ (s.history.posted i).length := by
  simpa using (queued.waiting i).length_le

/-- A request that has not been taken waits in its queue. -/
theorem Queued.getElem? (queued : s.Queued submitQueueNum requests) (i k : Nat) :
    (s.submitQueue i)[k]? =
      ((s.history.posted i)[s.takenFrom i + k]?).map (Request.task i) := by
  obtain ⟨front, whole⟩ := queued.waiting i
  have length := congrArg List.length whole
  rw [List.length_append, List.length_map] at length
  have place : s.takenFrom i = front.length := by
    rw [takenFrom]
    omega
  rw [← List.getElem?_map, ← whole, place, List.getElem?_append_right (Nat.le_add_right _ _),
    Nat.add_sub_cancel_left]

theorem due_submitted {task : IoTask} {i : Nat} (queue : i < submitQueueNum)
    (waiting : task ∈ s.submitQueue i) (k : Item) : taskDue task k ≤ s.due submitQueueNum k := by
  have here : taskDue task k ≤ ((s.submitQueue i).map taskDue).sum k := by
    rw [Pi.list_sum_apply, List.map_map]
    exact List.single_le_sum (fun _ _ => Nat.zero_le _) _ (List.mem_map.2 ⟨task, waiting, rfl⟩)
  have all : ((s.submitQueue i).map taskDue).sum k ≤
      (∑ j ∈ Finset.range submitQueueNum, ((s.submitQueue j).map taskDue).sum) k := by
    rw [Finset.sum_apply]
    exact Finset.single_le_sum (f := fun j => ((s.submitQueue j).map taskDue).sum k)
      (fun _ _ => Nat.zero_le _) (Finset.mem_range.2 queue)
  simp only [due, systemDue, Pi.add_apply]
  omega

/-- A read of some blocks that is complete has been taken. -/
theorem Queued.taken_of_complete (queued : s.Queued submitQueueNum requests)
    (accounted : s.Accounted submitQueueNum requests)
    (plain : ∀ i, ∀ request ∈ requests i, request.Plain)
    (distinct : ((batch submitQueueNum requests).filterMap Request.ret?).Nodup)
    {i k dst len offset flags ret type : Nat}
    (at_ : (s.history.posted i)[k]? = some (.read dst len offset flags ret type))
    (complete : len ≤ s.m.ret ret) (some_ : 0 < len) : k < s.takenFrom i := by
  refine Nat.lt_of_not_le fun waiting => ?_
  have posted := List.mem_of_getElem? at_
  have queue := queued.inUse i _ posted
  have member : Request.read dst len offset flags ret type ∈ requests i := by
    rw [← queued.posted i]
    exact List.mem_append_left _ posted
  have there := queued.getElem? i (k - s.takenFrom i)
  rw [Nat.add_sub_cancel' waiting, at_, Option.map_some] at there
  have owed := due_submitted queue (List.mem_of_getElem? there) (.added ret)
  have total := accounted.read distinct (mem_batch.2 ⟨i, queue, member⟩) (k := .added ret) rfl rfl
  rw [Request.due_task] at owed
  have counter : s.done (.added ret) = s.m.ret ret := rfl
  have due := congrFun (plain i _ member).read_due (.added ret)
  rw [blocksDue_added, if_pos ⟨rfl, rfl⟩] at due
  omega

end

/-! ## What the callers see -/

/-- What a turn is for the callers, and which request takes effect in it.  A request is named by its
submit queue and its place there. -/
def emit (s : Pipeline) : Turn → List (Event (Nat × Nat) DiskCall (List Block))
  | .post i =>
      (s.toPost i).head?.toList.flatMap fun request =>
        .call (i, (s.history.posted i).length) (request.call s.m.mem) ::
          if request.len = 0 then [.effect (i, (s.history.posted i).length)] else []
  | .scheduler =>
      (s.taken .scheduler).flatMap fun task =>
        if task.len = 0 then [] else [.effect (s.idx, s.takenFrom s.idx)]
  | .free i request => [.ret (i, (s.history.posted i).idxOf request) (request.answer s.m.mem)]
  | .nvm _ | .ssd _ | .migrate _ => []

/-- What the callers see of a run. -/
def callHistory (submitQueueNum capacity : Nat) (s : Pipeline) (turns : List Turn) :
    List (Event (Nat × Nat) DiskCall (List Block)) :=
  (trace (step submitQueueNum capacity) emit s turns).filter Event.visible

/-- The requests as threads of the disk, when the callers' memory was `start` and will be `final`: a
request that has taken effect has its answer, until its counter is freed. -/
structure Seen (start final : Mem) (s : Pipeline)
    (threads : Nat × Nat → Phase DiskCall (List Block)) : Prop where
  idle : ∀ i k, (s.history.posted i).length ≤ k → threads (i, k) = .idle
  called : ∀ i k request, (s.history.posted i)[k]? = some request → s.takenFrom i ≤ k →
    request.len ≠ 0 → threads (i, k) = .called (request.call start)
  done : ∀ i k request, (s.history.posted i)[k]? = some request →
    k < s.takenFrom i ∨ request.len = 0 →
    (∀ ret, request.ret? = some ret → ret ∉ s.history.released) →
    threads (i, k) = .done (request.answer final)

section

variable {submitQueueNum capacity : Nat} {requests : Nat → List Request} {s t : Pipeline}
  {start final : Mem} {threads : Nat × Nat → Phase DiskCall (List Block)}
  {disk disk' : Nat → Block}

theorem start_seen (m : Machine) (region : Nat → Block) (requests : Nat → List Request) :
    Seen start final (.start m region requests) fun _ => .idle where
  idle := fun _ _ _ => rfl
  called := fun _ _ _ at_ => nomatch at_
  done := fun _ _ _ at_ => nomatch at_

/-- A turn that the callers do not see. -/
theorem Seen.keep (seen : Seen start final s threads)
    (submitQueue : t.submitQueue = s.submitQueue) (posted : t.history.posted = s.history.posted)
    (released : t.history.released = s.history.released) : Seen start final t threads := by
  have taken : t.takenFrom = s.takenFrom := by
    funext i
    rw [takenFrom, takenFrom, posted, submitQueue]
  constructor
  · rw [posted]
    exact seen.idle
  · rw [posted, taken]
    exact seen.called
  · rw [posted, taken, released]
    exact seen.done

/-- A turn that changes one request for the callers, and leaves the other ones as they are. -/
theorem Seen.change (seen : Seen start final s threads) {i k : Nat} {request : Request}
    {threads' : Nat × Nat → Phase DiskCall (List Block)}
    (posted : ∀ j l, (j, l) ≠ (i, k) → (t.history.posted j)[l]? = (s.history.posted j)[l]?)
    (taken : ∀ j l, (j, l) ≠ (i, k) → (l < t.takenFrom j ↔ l < s.takenFrom j))
    (released : s.history.released ⊆ t.history.released)
    (others : ∀ c, c ≠ (i, k) → threads' c = threads c)
    (at_ : (t.history.posted i)[k]? = some request)
    (called : t.takenFrom i ≤ k → request.len ≠ 0 → threads' (i, k) = .called (request.call start))
    (done : k < t.takenFrom i ∨ request.len = 0 →
      (∀ ret, request.ret? = some ret → ret ∉ t.history.released) →
      threads' (i, k) = .done (request.answer final)) :
    Seen start final t threads' := by
  refine ⟨fun j l above => ?_, fun j l other there waits some_ => ?_,
    fun j l other there gone unfreed => ?_⟩
  all_goals by_cases same : (j, l) = (i, k)
  · cases same
    rw [List.getElem?_eq_none above] at at_
    cases at_
  · rw [others _ same]
    refine seen.idle j l (List.getElem?_eq_none_iff.1 ?_)
    rw [← posted j l same, List.getElem?_eq_none above]
  · cases same
    rw [at_] at there
    cases there
    exact called waits some_
  · rw [others _ same]
    refine seen.called j l other (posted j l same ▸ there) (Nat.not_lt.1 fun early => ?_) some_
    exact Nat.not_lt.2 waits ((taken j l same).2 early)
  · cases same
    rw [at_] at there
    cases there
    exact done gone unfreed
  · rw [others _ same]
    exact seen.done j l other (posted j l same ▸ there) (gone.imp_left (taken j l same).1)
      fun ret own freed => unfreed ret own (released freed)

/-- A request is posted. -/
theorem Seen.post (seen : Seen start final s threads) {i : Nat} {request : Request}
    {rest : List Request} (next : s.toPost i = request :: rest)
    (sources : request.call s.m.mem = request.call start)
    (submitQueue : t.submitQueue =
      Function.update s.submitQueue i (s.submitQueue i ++ [request.task i]))
    (posted : t.history.posted =
      Function.update s.history.posted i (s.history.posted i ++ [request]))
    (released : t.history.released = s.history.released) :
    ∃ threads', Legal DiskCall.Allows disk threads (s.emit (.post i)) disk threads' ∧
      Seen start final t threads' := by
  have taken : t.takenFrom = s.takenFrom := by
    funext j
    rw [takenFrom, takenFrom, posted, submitQueue]
    by_cases same : j = i
    · subst same
      simp only [Function.update_self, List.length_append, List.length_singleton]
      omega
    · rw [Function.update_of_ne same, Function.update_of_ne same]
  -- the requests that were posted before
  have before : ∀ j k, (j, k) ≠ (i, (s.history.posted i).length) →
      (t.history.posted j)[k]? = (s.history.posted j)[k]? := by
    intro j k other
    rw [posted]
    by_cases same : j = i
    · subst same
      have apart : k ≠ (s.history.posted j).length := fun eq => other (Prod.ext rfl eq)
      rw [Function.update_self, List.getElem?_append]
      split
      next => rfl
      next late =>
        rw [List.getElem?_eq_none (by simp only [List.length_singleton]; omega),
          List.getElem?_eq_none (by omega)]
    · rw [Function.update_of_ne same]
  have self : (t.history.posted i)[(s.history.posted i).length]? = some request := by
    rw [posted, Function.update_self, List.getElem?_concat_length]
  have fresh := seen.idle i (s.history.posted i).length (Nat.le_refl _)
  have seen' {phase : Phase DiskCall (List Block)}
      (called : request.len ≠ 0 → phase = .called (request.call start))
      (done : request.len = 0 → phase = .done (request.answer final)) :
      Seen start final t (Function.update threads (i, (s.history.posted i).length) phase) := by
    refine seen.change before (fun j k _ => by rw [taken]) (released ▸ List.Subset.refl _)
      (fun c other => Function.update_of_ne other ..) self (fun _ some_ => ?_) fun gone _ => ?_
    · rw [Function.update_self]
      exact called some_
    · rw [Function.update_self]
      refine done (gone.resolve_left fun early => ?_)
      rw [taken, takenFrom] at early
      omega
  simp only [emit, next, List.head?_cons, Option.toList_some, List.flatMap_singleton, sources]
  by_cases empty : request.len = 0
  · rw [if_pos empty]
    refine ⟨_, .call fresh (.effect (Function.update_self ..)
      (Request.call_empty empty start final disk) .nil), ?_⟩
    rw [Function.update_idem]
    exact seen' (absurd empty) fun _ => rfl
  · rw [if_neg empty]
    exact ⟨_, .call fresh .nil, seen' (fun _ => rfl) fun zero => absurd zero empty⟩

/-- The scheduler takes a task. -/
theorem Seen.schedule (seen : Seen start final s threads)
    (queued : s.Queued submitQueueNum requests) {task : IoTask} {rest : List IoTask}
    (hand : s.hand = []) (queue : s.submitQueue s.idx = task :: rest)
    (effect : ∀ request ∈ s.history.posted s.idx, request.task s.idx = task →
      (request.call start).run disk = (request.answer final, disk'))
    (submitQueue : t.submitQueue = Function.update s.submitQueue s.idx rest)
    (posted : t.history.posted = s.history.posted)
    (released : t.history.released = s.history.released) :
    ∃ threads', Legal DiskCall.Allows disk threads (s.emit .scheduler) disk' threads' ∧
      Seen start final t threads' := by
  obtain ⟨request, at_, rfl⟩ : ∃ request,
      (s.history.posted s.idx)[s.takenFrom s.idx]? = some request ∧ request.task s.idx = task := by
    have first := queued.getElem? s.idx 0
    rw [queue, List.getElem?_cons_zero, Nat.add_zero, eq_comm, Option.map_eq_some_iff] at first
    exact first
  have len : (request.task s.idx).len = request.len := by cases request <;> rfl
  have one := taken_task hand queue
  have runs := effect request (List.mem_of_getElem? at_) rfl
  have here : t.takenFrom s.idx = s.takenFrom s.idx + 1 := by
    have enough := queued.length_le s.idx
    rw [queue, List.length_cons] at enough
    rw [takenFrom, takenFrom, posted, submitQueue, Function.update_self, queue, List.length_cons]
    omega
  -- the other tasks were taken before, or still wait
  have apart : ∀ j k, (j, k) ≠ (s.idx, s.takenFrom s.idx) →
      (k < t.takenFrom j ↔ k < s.takenFrom j) := by
    intro j k other
    by_cases same : j = s.idx
    · subst same
      have apart : k ≠ s.takenFrom s.idx := fun eq => other (Prod.ext rfl eq)
      omega
    · rw [takenFrom, takenFrom, posted, submitQueue, Function.update_of_ne same]
  have seen' {threads' : Nat × Nat → Phase DiskCall (List Block)}
      (others : ∀ c, c ≠ (s.idx, s.takenFrom s.idx) → threads' c = threads c)
      (done : (∀ ret, request.ret? = some ret → ret ∉ s.history.released) →
        threads' (s.idx, s.takenFrom s.idx) = .done (request.answer final)) :
      Seen start final t threads' := by
    refine seen.change (fun j k _ => by rw [posted]) apart (released ▸ List.Subset.refl _) others
      (posted ▸ at_) (fun waits => ?_) fun _ unfreed => done (released ▸ unfreed)
    omega
  simp only [emit, one, List.flatMap_singleton, len]
  by_cases empty : request.len = 0
  · rw [if_pos empty]
    obtain rfl : disk = disk' :=
      congrArg Prod.snd ((Request.call_empty empty start final disk).symm.trans runs)
    exact ⟨threads, .nil, seen' (fun _ _ => rfl) (seen.done _ _ request at_ (.inr empty))⟩
  · rw [if_neg empty]
    exact ⟨_, .effect (seen.called _ _ request at_ (Nat.le_refl _) empty) runs .nil,
      seen' (fun c other => Function.update_of_ne other ..) fun _ => Function.update_self ..⟩

/-- A caller has its read, and frees the counter. -/
theorem Seen.free (seen : Seen start final s threads) {i : Nat} {request : Request}
    (member : request ∈ s.history.posted i) {ret : Nat} (counter : request.ret? = some ret)
    (taken : (s.history.posted i).idxOf request < s.takenFrom i ∨ request.len = 0)
    (unfreed : ret ∉ s.history.released)
    (returned : request.answer s.m.mem = request.answer final)
    (submitQueue : t.submitQueue = s.submitQueue) (posted : t.history.posted = s.history.posted)
    (released : t.history.released = ret :: s.history.released) :
    ∃ threads', Legal DiskCall.Allows disk threads (s.emit (.free i request)) disk threads' ∧
      Seen start final t threads' := by
  have at_ : (s.history.posted i)[(s.history.posted i).idxOf request]? = some request := by
    rw [List.getElem?_eq_getElem (List.idxOf_lt_length_of_mem member), List.getElem_idxOf]
  have done := seen.done i _ request at_ taken fun r own => by
    cases counter.symm.trans own
    exact unfreed
  have still : t.takenFrom = s.takenFrom := by
    funext j
    rw [takenFrom, takenFrom, posted, submitQueue]
  refine ⟨_, .ret (returned ▸ done) .nil, ?_⟩
  refine seen.change (fun j k _ => by rw [posted]) (fun j k _ => by rw [still])
    (released ▸ List.subset_cons_self ret _) (fun c other => Function.update_of_ne other ..)
    (by rwa [posted]) (fun waits some_ => ?_) fun _ kept => ?_
  · rw [still] at waits
    exact absurd (taken.resolve_right some_) (Nat.not_lt.2 waits)
  · exact absurd List.mem_cons_self (released ▸ kept ret counter)

/-- A turn is what the callers see of it. -/
theorem Seen.step (seen : Seen start final s threads) (queued : s.Queued submitQueueNum requests)
    (accounted : s.Accounted submitQueueNum requests)
    (plain : ∀ i, ∀ request ∈ requests i, request.Plain)
    (distinct : ((batch submitQueueNum requests).filterMap Request.ret?).Nodup) {turn : Turn}
    (stepped : s.step submitQueueNum capacity turn = some t)
    (sources : ∀ i < submitQueueNum, ∀ request ∈ requests i,
      request.call s.m.mem = request.call start)
    (returned : ∀ i < submitQueueNum, ∀ dst len offset flags ret type,
      .read dst len offset flags ret type ∈ requests i → len ≤ s.m.ret ret →
        blocksOf s.m.mem dst len = blocksOf final dst len)
    (idle : s.taken turn = [] → disk' = disk)
    (effect : ∀ i < submitQueueNum, ∀ request ∈ requests i, s.taken turn = [request.task i] →
      (request.call start).run disk = (request.answer final, disk')) :
    ∃ threads', Legal DiskCall.Allows disk threads (s.emit turn) disk' threads' ∧
      Seen start final t threads' := by
  -- a turn that the callers do not see
  have unseen : s.emit turn = [] → s.taken turn = [] → t.submitQueue = s.submitQueue →
      t.history.posted = s.history.posted → t.history.released = s.history.released →
      ∃ threads', Legal DiskCall.Allows disk threads (s.emit turn) disk' threads' ∧
        Seen start final t threads' := by
    intro nothing untaken submitQueue posted released
    rw [nothing, idle untaken]
    exact ⟨threads, .nil, seen.keep submitQueue posted released⟩
  have inBatch : ∀ i, ∀ request ∈ s.history.posted i, i < submitQueueNum ∧ request ∈ requests i := by
    intro i request member
    refine ⟨queued.inUse i request member, ?_⟩
    rw [← queued.posted i]
    exact List.mem_append_left _ member
  cases step_cases stepped with
  | front step =>
      cases step with
      | @post i request rest next queue =>
          rw [idle rfl]
          have member : request ∈ requests i := by
            rw [← queued.posted i, next]
            exact List.mem_append_right _ List.mem_cons_self
          exact seen.post next (sources i queue request member) rfl rfl rfl
      | @free i dst len offset flags ret type posted completed =>
          rw [idle rfl]
          obtain ⟨queue, member⟩ := inBatch i _ posted
          have unfreed : ret ∉ s.history.released := by
            intro freed
            simp [Pipeline.step, freeStep, freed] at stepped
          have at_ : (s.history.posted i)[(s.history.posted i).idxOf
              (.read dst len offset flags ret type)]? = some (.read dst len offset flags ret type) := by
            rw [List.getElem?_eq_getElem (List.idxOf_lt_length_of_mem posted), List.getElem_idxOf]
          have taken : (s.history.posted i).idxOf (.read dst len offset flags ret type) <
              s.takenFrom i ∨ len = 0 := by
            rcases Nat.eq_zero_or_pos len with empty | some_
            · exact .inr empty
            · exact .inl (queued.taken_of_complete accounted plain distinct at_ completed some_)
          exact seen.free posted rfl taken unfreed
            (returned i queue dst len offset flags ret type member completed) rfl rfl rfl
      | skip hand queue =>
          have untaken := taken_skip hand queue
          exact unseen (by rw [emit, untaken]; rfl) untaken rfl rfl rfl
      | @schedule task rest hand queue =>
          refine seen.schedule queued hand queue (fun request posted is => ?_) rfl rfl rfl
          obtain ⟨below, member⟩ := inBatch s.idx request posted
          exact effect s.idx below request member (is ▸ taken_task hand queue)
      | toNvm hand =>
          have untaken := taken_hand hand
          exact unseen (by rw [emit, untaken]; rfl) untaken rfl rfl rfl
      | toBuffer hand =>
          have untaken := taken_hand hand
          exact unseen (by rw [emit, untaken]; rfl) untaken rfl rfl rfl
  | nvm idx is step =>
      subst is
      obtain ⟨-, submitQueue, posted, released⟩ := step.calls
      exact unseen rfl rfl submitQueue posted released
  | ssd idx is step =>
      subst is
      obtain ⟨-, submitQueue, posted, released⟩ := step.calls
      exact unseen rfl rfl submitQueue posted released
  | migrate thread is migration moved result =>
      subst is result
      exact unseen rfl rfl rfl rfl rfl

end

end Pipeline

/-! ## Whole runs -/

/-- The disk as the requests leave it that the scheduler takes in a run. -/
def Pipeline.diskAfter (submitQueueNum capacity : Nat) (s : Pipeline) (turns : List Pipeline.Turn) :
    Disk :=
  (s.scheduled submitQueueNum capacity turns).foldl Disk.handle s.storage.disk

section

variable {P submitQueueNum capacity : Nat} {m : Machine} {region : Nat → Block}
  {requests : Nat → List Request} {turns : List Pipeline.Turn} {s : Pipeline}

/-- What a write stores is in memory as it was at the start. -/
theorem sources_kept {guard : Pipeline → Pipeline.Turn → Prop}
    (plain : ∀ i, ∀ request ∈ requests i, request.Plain)
    (separate : (batchTasks submitQueueNum requests).Pairwise IoTask.Separate)
    (run : Run (Pipeline.step submitQueueNum capacity) guard (.start m region requests) turns s)
    {i : Nat} (queue : i < submitQueueNum) {request : Request} (member : request ∈ requests i) :
    request.call s.m.mem = request.call m.mem := by
  cases request with
  | read => rfl
  | write src len offset flags type =>
      refine congrArg (DiskCall.write offset) (blocksOf_congr fun a inside => ?_)
      refine unread_kept plain (fun t there read => ?_) run
      have different : Request.task i (.write src len offset flags type) ≠ t := by
        rintro rfl
        exact write_opCode src len offset flags type i read
      exact (separate.forall (mem_batchTasks.2 ⟨i, queue, _, member, rfl⟩) there different).unread
        read inside

/-- From any state of the run on, the rest of the run is legal for the disk as the requests leave it
that the scheduler has taken by then. -/
theorem legal_from (running : Running P m) (keyed : Keyed m.md)
    (plain : ∀ i, ∀ request ∈ requests i, request.Plain)
    (distinct : ((batch submitQueueNum requests).filterMap Request.ret?).Nodup)
    (separate : (batchTasks submitQueueNum requests).Pairwise IoTask.Separate)
    (run : Run (Pipeline.step submitQueueNum capacity) (Pipeline.Begins LosesNothing)
      (.start m region requests) turns s)
    (rest : s.AtRest submitQueueNum) {past future : List Pipeline.Turn} {u : Pipeline}
    (split : turns = past ++ future)
    (upto : Run (Pipeline.step submitQueueNum capacity) (Pipeline.Begins LosesNothing)
      (.start m region requests) past u)
    (later : Run (Pipeline.step submitQueueNum capacity) (Pipeline.Begins LosesNothing) u future s)
    {threads : Nat × Nat → Phase DiskCall (List Block)}
    (seen : Pipeline.Seen m.mem s.m.mem u threads) :
    ∃ disk threads', Legal DiskCall.Allows
      ((Pipeline.start m region requests).diskAfter submitQueueNum capacity past).block threads
      (trace (Pipeline.step submitQueueNum capacity) Pipeline.emit u future) disk threads' := by
  have regional := fun i request member => (plain i request member).regional
  have final := congrArg Disk.mem (disk_in_order running keyed plain separate run rest)
  generalize origin : Pipeline.start m region requests = start at *
  have order : (start.scheduled submitQueueNum capacity turns).Pairwise IoTask.Separate := by
    subst origin
    exact ((scheduled_serializes run rest).perm.pairwise_iff fun apart => apart.symm).2 separate
  induction future generalizing past u threads with
  | nil => exact ⟨_, _, .nil⟩
  | cons turn future ih =>
      have whole := later
      cases later with
      | @cons _ v _ _ _ met stepped later =>
      have accounted : u.Accounted submitQueueNum requests :=
        upto.invariant (fun _ _ _ inv _ stepped => inv.step (Pipeline.step_cases stepped))
          (origin ▸ Pipeline.start_accounted m region regional)
      have queued : u.Queued submitQueueNum requests :=
        upto.invariant (fun _ _ _ inv _ stepped => inv.step (Pipeline.step_cases stepped))
          (origin ▸ Pipeline.start_queued m region)
      have grown : start.diskAfter submitQueueNum capacity (past ++ [turn]) =
          (u.taken turn).foldl Disk.handle (start.diskAfter submitQueueNum capacity past) := by
        rw [Pipeline.diskAfter, Pipeline.scheduled_append upto.exec,
          Pipeline.scheduled_cons stepped, Pipeline.scheduled, List.append_nil, List.foldl_append]
        rfl
      obtain ⟨threads', legal, seen'⟩ : ∃ threads', Legal DiskCall.Allows
          (start.diskAfter submitQueueNum capacity past).block threads (u.emit turn)
          (start.diskAfter submitQueueNum capacity (past ++ [turn])).block threads' ∧
          Pipeline.Seen m.mem s.m.mem v threads' := by
        refine seen.step queued accounted plain distinct stepped
          (fun i queue request member => sources_kept plain separate (origin ▸ upto) queue member)
          (fun i queue dst len offset flags ret type member complete =>
            blocksOf_congr fun a inside => (read_kept plain distinct separate accounted queue
              member complete whole inside).symm)
          (fun nothing => by rw [grown, nothing, List.foldl_nil])
          (fun i queue request member taken => ?_)
        have place : start.scheduled submitQueueNum capacity turns =
            start.scheduled submitQueueNum capacity past ++
              request.task i :: v.scheduled submitQueueNum capacity future := by
          rw [split, Pipeline.scheduled_append upto.exec, Pipeline.scheduled_cons stepped, taken,
            List.singleton_append]
        have runs := (plain i request member).call_run i (d := start.storage.disk) (place ▸ order)
        rw [← place, ← final] at runs
        rw [grown, taken, List.foldl_cons, List.foldl_nil]
        subst origin
        exact runs
      have split' : turns = past ++ [turn] ++ future := by
        rw [split, List.append_assoc, List.singleton_append]
      have upto' := upto.append (.cons met stepped (.nil v))
      obtain ⟨disk, threads'', legal'⟩ := ih split' later seen' upto'
      refine ⟨disk, threads'', ?_⟩
      rw [trace, stepped]
      exact legal.append legal'

theorem legal_of_rest (running : Running P m) (keyed : Keyed m.md)
    (plain : ∀ i, ∀ request ∈ requests i, request.Plain)
    (distinct : ((batch submitQueueNum requests).filterMap Request.ret?).Nodup)
    (separate : (batchTasks submitQueueNum requests).Pairwise IoTask.Separate)
    (run : Run (Pipeline.step submitQueueNum capacity) (Pipeline.Begins LosesNothing)
      (.start m region requests) turns s)
    (rest : s.AtRest submitQueueNum) :
    ∃ disk threads, Legal DiskCall.Allows (Pipeline.start m region requests).storage.disk.block
      (fun _ => .idle)
      (trace (Pipeline.step submitQueueNum capacity) Pipeline.emit (.start m region requests) turns)
      disk threads :=
  legal_from running keyed plain distinct separate run rest (List.nil_append turns).symm (.nil _)
    run (Pipeline.start_seen m region requests)

end

end Mixdk
