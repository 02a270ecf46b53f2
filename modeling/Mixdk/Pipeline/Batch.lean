/-
# Pipeline.Batch -- what a batch of requests owes

At the start a batch owes, for each read, its blocks delivered to their addresses and as
many added to its counter, and for the writes each block stored and counted.  By
conservation this is at every moment what is done and what is still owed together
(`Accounted`), and when all queues and workers are idle nothing is owed (`AtRest`).
-/
import Mixdk.Pipeline.Accounting

namespace Mixdk

open Transition

set_option autoImplicit false

/-! ## Batches -/

/-- The counter of a read.  It stands for what `malloc` returned to this call. -/
def Request.ret? : Request → Option Nat
  | .read _ _ _ _ ret _ => some ret
  | .write .. => none

/-- Wholly in one region of the device. -/
def Request.Regional : Request → Prop
  | .read _ len offset _ _ _ | .write _ len offset _ _ =>
      offset + len < SCHEDULER_THRESHOLD ∨
        SCHEDULER_THRESHOLD ≤ offset ∧ offset + len ≤ DEVICE_BLOCK_NUM

/-- No opcode in the flags, and wholly in one region of the device. -/
def Request.Plain : Request → Prop
  | .read _ len offset flags _ _ | .write _ len offset flags _ =>
      flags &&& (MIX_READ ||| MIX_WRITE ||| MIX_CLEAR) = 0 ∧
        (offset + len < SCHEDULER_THRESHOLD ∨
          SCHEDULER_THRESHOLD ≤ offset ∧ offset + len ≤ DEVICE_BLOCK_NUM)

def Request.writeLen : Request → Nat
  | .read .. => 0
  | .write _ len _ _ _ => len

/-- The addresses of the blocks of a buffer. -/
def addresses (buf len : Nat) : List Nat := (List.range len).map fun j => buf + j * BLOCK_SIZE

def Request.sources : Request → List Nat
  | .read .. => []
  | .write src len _ _ _ => addresses src len

/-- The requests of all submit queues. -/
def batch (submitQueueNum : Nat) (requests : Nat → List Request) : List Request :=
  (List.range submitQueueNum).flatMap requests

def Request.due (request : Request) : Owed := taskDue (request.task 0)

theorem Request.due_task (request : Request) (i : Nat) : taskDue (request.task i) = request.due := by
  cases request <;> rfl

theorem Request.Plain.regional {request : Request} (plain : request.Plain) : request.Regional := by
  cases request with
  | read | write => exact plain.2

theorem Request.Regional.sided {request : Request} (regional : request.Regional) (i : Nat) :
    (request.task i).Sided := by
  cases request with
  | read | write => exact regional.imp id And.left

theorem Request.Regional.inside {request : Request} (regional : request.Regional) :
    request.Inside := by
  have below : SCHEDULER_THRESHOLD ≤ DEVICE_BLOCK_NUM := by decide
  intro i
  cases request with
  | read | write =>
      rcases regional with nvm | ⟨-, inside⟩
      · exact Nat.le_trans (Nat.le_of_lt nvm) below
      · exact inside

theorem batch_plain (submitQueueNum : Nat) {requests : Nat → List Request}
    (plain : ∀ i, ∀ request ∈ requests i, request.Plain) :
    ∀ request ∈ batch submitQueueNum requests, request.Plain := by
  intro request member
  obtain ⟨i, -, inside⟩ := List.mem_flatMap.1 member
  exact plain i request inside

theorem opCode_flags {op flags : Nat}
    (clean : flags &&& (MIX_READ ||| MIX_WRITE ||| MIX_CLEAR) = 0) :
    (op ||| flags) &&& (MIX_READ ||| MIX_WRITE ||| MIX_CLEAR) =
      op &&& (MIX_READ ||| MIX_WRITE ||| MIX_CLEAR) := by
  rw [Nat.and_or_distrib_right, clean, Nat.or_zero]

theorem batchDue (submitQueueNum : Nat) (requests : Nat → List Request) :
    ∑ i ∈ Finset.range submitQueueNum, requestsDue i (requests i) =
      ((batch submitQueueNum requests).map Request.due).sum := by
  induction submitQueueNum with
  | zero => rfl
  | succ n ih =>
      rw [Finset.sum_range_succ, ih, batch, batch, List.range_succ, List.flatMap_append,
        List.map_append, List.sum_append]
      simp only [requestsDue, Request.due_task, List.flatMap_singleton]

/-! ## What a request owes -/

section

variable {op ret buf len r : Nat}

theorem delivery_sum (copies : List Nat) (ret r d : Nat) :
    (copies.map (delivery ret)).sum (.copy r d) = if r = ret then copies.count d else 0 := by
  induction copies with
  | nil => simp
  | cons dst copies ih =>
      rw [List.map_cons, List.sum_cons, Pi.add_apply, ih]
      by_cases same : r = ret <;>
        simp [delivery, same, List.count_cons, eq_comm (a := dst), Nat.add_comm]

theorem storing_sum (stores : List Nat) (src : Nat) :
    (stores.map storing).sum (.store src) = stores.count src := by
  induction stores with
  | nil => simp
  | cons a stores ih =>
      rw [List.map_cons, List.sum_cons, Pi.add_apply, ih]
      simp [storing, List.count_cons, eq_comm (a := a), Nat.add_comm]

@[simp] theorem blocksDue_copy (op ret buf len r d : Nat) : blocksDue op ret buf len (.copy r d) =
    if op = MIX_READ ∧ r = ret then (addresses buf len).count d else 0 := by
  rw [blocksDue_apply]
  by_cases read : op = MIX_READ
  · have moves := delivery_sum (addresses buf len) ret r d
    rw [Pi.list_sum_apply, addresses, List.map_map, List.map_map] at moves
    simp only [read, if_true, true_and, one_apply, reduceCtorEq, if_false, mul_zero, add_zero]
    exact moves
  · simp [read, storing]

@[simp] theorem blocksDue_store (op ret buf len src : Nat) : blocksDue op ret buf len (.store src) =
    if op = MIX_WRITE then (addresses buf len).count src else 0 := by
  rw [blocksDue_apply]
  by_cases read : op = MIX_READ
  · simp [read, write_ne_read.symm, delivery]
  · have moves := storing_sum (addresses buf len) src
    rw [Pi.list_sum_apply, addresses, List.map_map, List.map_map] at moves
    simp only [if_neg read, one_apply, reduceCtorEq, if_false, mul_zero, add_zero]
    exact congrArg (fun n => if op = MIX_WRITE then n else 0) moves

end

/-- What a read owes; a write owes nothing to its counter. -/
theorem Request.Plain.read_due {dst len offset flags ret type : Nat}
    (plain : (Request.read dst len offset flags ret type).Plain) :
    (Request.read dst len offset flags ret type).due = blocksDue MIX_READ ret dst len := by
  have op : opCode ((Request.read dst len offset flags ret type).task 0) = MIX_READ :=
    opCode_flags plain.1
  rw [Request.due, taskDue, op]
  rfl

theorem Request.Plain.write_due {src len offset flags type : Nat}
    (plain : (Request.write src len offset flags type).Plain) :
    (Request.write src len offset flags type).due = blocksDue MIX_WRITE 0 src len := by
  have op : opCode ((Request.write src len offset flags type).task 0) = MIX_WRITE :=
    opCode_flags plain.1
  rw [Request.due, taskDue, op]
  rfl

/-- The counter an item is about. -/
def Item.ret? : Item → Option Nat
  | .copy ret _ | .copies ret | .added ret => some ret
  | .store _ | .stores | .counted => none

/-- Whatever its flags, a write is no read. -/
theorem write_opCode (src len offset flags type i : Nat) :
    opCode ((Request.write src len offset flags type).task i) ≠ MIX_READ := by
  intro read
  have bit := congrArg (·.testBit 2) read
  simp only [opCode, Request.task, Nat.testBit_and, Nat.testBit_or] at bit
  revert bit
  cases flags.testBit 2 <;> decide

theorem Request.due_other {request : Request} {k : Item} {ret : Nat}
    (about : k.ret? = some ret) (other : request.ret? ≠ some ret) : request.due k = 0 := by
  cases request with
  | read dst len offset flags r type =>
      have apart : ret ≠ r := fun same => other (congrArg some same.symm)
      cases k <;> cases about <;> simp [Request.due, taskDue, Request.task, apart]
  | write src len offset flags type =>
      have notRead := write_opCode src len offset flags type 0
      cases k <;> cases about <;> simp [Request.due, taskDue, notRead]

/-- Where every call has its own counter, the batch owes to it what its read owes. -/
theorem batch_read {requests : List Request} (distinct : (requests.filterMap Request.ret?).Nodup)
    {request : Request} (member : request ∈ requests) {k : Item} {ret : Nat}
    (about : k.ret? = some ret) (counter : request.ret? = some ret) :
    (requests.map Request.due).sum k = request.due k := by
  obtain ⟨before, after, rfl⟩ := List.append_of_mem member
  have others (list : List Request) (apart : ret ∉ list.filterMap Request.ret?) :
      (list.map Request.due).sum k = 0 := by
    rw [Pi.list_sum_apply, List.map_map]
    apply List.sum_eq_zero
    intro n there
    obtain ⟨r, position, rfl⟩ := List.mem_map.1 there
    exact r.due_other about fun same => apart (List.mem_filterMap.2 ⟨r, position, same⟩)
  simp only [List.filterMap_append, List.filterMap_cons, counter] at distinct
  have first := others before (by grind)
  have second := others after (by grind)
  rw [List.map_append, List.sum_append, List.map_cons, List.sum_cons, Pi.add_apply, Pi.add_apply,
    first, second, Nat.zero_add, Nat.add_zero]

/-- The writes of a batch. -/
theorem batch_writes {requests : List Request} (plain : ∀ request ∈ requests, request.Plain) :
    (requests.map Request.due).sum .stores = (requests.map Request.writeLen).sum ∧
    (requests.map Request.due).sum .counted = (requests.map Request.writeLen).sum ∧
    ∀ src, (requests.map Request.due).sum (.store src) =
      (requests.flatMap Request.sources).count src := by
  induction requests with
  | nil => exact ⟨rfl, rfl, fun _ => rfl⟩
  | cons request requests ih =>
      obtain ⟨here, later⟩ := List.forall_mem_cons.1 plain
      obtain ⟨stores, counted, sources⟩ := ih later
      simp only [List.map_cons, List.sum_cons, List.flatMap_cons, List.count_append, Pi.add_apply,
        stores, counted, sources]
      cases request with
      | read =>
          rw [here.read_due]
          simp [write_ne_read.symm, Request.writeLen, Request.sources]
      | write =>
          rw [here.write_due]
          simp [Request.writeLen, Request.sources]

/-! ## Runs -/

/-- Nothing in the queues, nothing in hand. -/
def Station.Idle (station : Station) : Prop :=
  station.bufferQueue = [] ∧ station.nvmQueue = [] ∧ station.nvm = .poll ∧
    station.ssdQueue = [] ∧ station.ssd = .poll

/-- All requests are posted, and all queues and workers are idle. -/
structure Pipeline.AtRest (submitQueueNum : Nat) (s : Pipeline) : Prop where
  posted : ∀ i < submitQueueNum, s.toPost i = []
  submitted : ∀ i < submitQueueNum, s.submitQueue i = []
  hand : s.hand = []
  station : ∀ idx, (s.station idx).Idle

theorem Pipeline.AtRest.due {submitQueueNum : Nat} {s : Pipeline} (rest : s.AtRest submitQueueNum) :
    s.due submitQueueNum = 0 := by
  have posted : ∑ i ∈ Finset.range submitQueueNum, requestsDue i (s.toPost i) = 0 := by
    apply Finset.sum_eq_zero
    intro i member
    rw [rest.posted i (Finset.mem_range.1 member)]
    rfl
  have submitted : ∑ i ∈ Finset.range submitQueueNum, ((s.submitQueue i).map taskDue).sum = 0 := by
    apply Finset.sum_eq_zero
    intro i member
    rw [rest.submitted i (Finset.mem_range.1 member)]
    rfl
  have station : ∑ idx, (s.station idx).due = 0 := by
    apply Finset.sum_eq_zero
    intro idx _
    obtain ⟨buffer, nvmQueue, nvm, ssdQueue, ssd⟩ := rest.station idx
    simp [Station.due, buffer, nvmQueue, nvm, ssdQueue, ssd, NvmPc.due, SsdPhase.due]
  simp [Pipeline.due, systemDue, posted, submitted, rest.hand, station]

/-- What holds of every state of a run. -/
structure Pipeline.Accounted (submitQueueNum : Nat) (requests : Nat → List Request)
    (s : Pipeline) : Prop where
  fits : s.Fits
  sided : s.Sided submitQueueNum
  backed : s.StillBacked
  total : s.done + s.due submitQueueNum =
    ((batch submitQueueNum requests).map Request.due).sum

namespace Pipeline

variable {submitQueueNum capacity : Nat} {requests : Nat → List Request} {s t : Pipeline}

theorem Accounted.step (accounted : s.Accounted submitQueueNum requests) {turn : Turn}
    (cases_ : StepCases submitQueueNum s turn t) : t.Accounted submitQueueNum requests where
  fits := accounted.fits.step cases_
  sided := accounted.sided.step cases_
  backed := accounted.backed.step accounted.fits cases_
  total := (conserved accounted.fits accounted.sided cases_).trans accounted.total

theorem start_done (m : Machine) (region : Nat → Block) : (start m region requests).done = 0 := by
  funext k
  cases k <;> rfl

theorem start_accounted (m : Machine) (region : Nat → Block)
    (regional : ∀ i, ∀ request ∈ requests i, request.Regional) :
    (start m region requests).Accounted submitQueueNum requests where
  fits := start_fits m region fun i request member => (regional i request member).inside
  sided :=
    { toPost := fun i request member => (regional i request member).sided i
      submitted := fun _ _ member => nomatch member }
  backed := fun _ => trivial
  total := by
    rw [start_done, ← batchDue]
    simp [due, systemDue, start, Station.due, Station.idle, NvmPc.due, SsdPhase.due]

/-- What is done and owed to the counter of a read. -/
theorem Accounted.read (accounted : s.Accounted submitQueueNum requests)
    (distinct : ((batch submitQueueNum requests).filterMap Request.ret?).Nodup)
    {request : Request} (member : request ∈ batch submitQueueNum requests) {k : Item} {ret : Nat}
    (about : k.ret? = some ret) (counter : request.ret? = some ret) :
    s.done k + s.due submitQueueNum k = request.due k := by
  rw [← batch_read distinct member about counter, ← accounted.total]
  rfl

theorem Accounted.station_le (accounted : s.Accounted submitQueueNum requests) (idx : SegIdx)
    (k : Item) : s.done k + (s.station idx).due k ≤
      ((batch submitQueueNum requests).map Request.due).sum k := by
  have one_of : (s.station idx).due k ≤ (∑ j, (s.station j).due) k := by
    rw [← Finset.add_sum_erase _ (fun j => (s.station j).due) (Finset.mem_univ idx), Pi.add_apply]
    exact Nat.le_add_right _ _
  have total : s.done k + s.due submitQueueNum k = _ := congrFun accounted.total k
  simp only [Pipeline.due, systemDue, Pi.add_apply] at total
  omega

end Pipeline

/-! ## Reads -/

/-- How many of the `len` blocks at `dst` were delivered for the counter. -/
def History.delivered (history : History) (ret dst len : Nat) : Nat :=
  (addresses dst len).countP fun block => (ret, block) ∈ history.copied

theorem addresses_nodup (buf len : Nat) : (addresses buf len).Nodup := by
  apply List.nodup_range.map
  intro i j same
  simp only [BLOCK_SIZE] at same
  omega

/-- Deliveries to different addresses of the buffer are different blocks of it. -/
theorem delivered_of_count {history : History} {ret dst len : Nat}
    (once : ∀ d, history.copied.count (ret, d) ≤ (addresses dst len).count d) :
    (history.copied.countP fun copy => copy.1 = ret) ≤ history.delivered ret dst len := by
  have distinct : (history.copied.filter fun copy => copy.1 = ret).Nodup := by
    rw [List.nodup_iff_count_le_one]
    rintro ⟨r, d⟩
    by_cases same : r = ret
    · subst same
      rw [List.count_filter (by simp)]
      exact Nat.le_trans (once d) (List.nodup_iff_count_le_one.1 (addresses_nodup dst len) d)
    · rw [List.count_eq_zero_of_not_mem (by simp [same])]
      exact Nat.zero_le _
  have subset : (history.copied.filter fun copy => copy.1 = ret) ⊆
      ((addresses dst len).filter fun block => (ret, block) ∈ history.copied).map (ret, ·) := by
    rintro ⟨r, d⟩ member
    obtain ⟨copied, same⟩ := List.mem_filter.1 member
    simp only [decide_eq_true_eq] at same
    subst same
    have there : d ∈ addresses dst len :=
      List.count_pos_iff.1 (Nat.lt_of_lt_of_le (List.count_pos_iff.2 copied) (once d))
    exact List.mem_map.2 ⟨d, List.mem_filter.2 ⟨there, by simpa using copied⟩, rfl⟩
  have short := (distinct.subperm subset).length_le
  rwa [List.length_map, ← List.countP_eq_length_filter, ← List.countP_eq_length_filter] at short

end Mixdk
