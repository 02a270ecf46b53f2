/-
# Pipeline.ProgramOrder -- the NVM region in the order of each submitter

The log of the NVM region, restricted to one nvm_worker, is block by block what its submit
queue's requests say, in the order they were posted (`Logged`); and the region is what the
log leaves, so each load returns the latest store.  Hence a block that only one submitter
writes reads as that submitter last wrote it (`program_order`).

That every task is executed needs the scheduler to poll its queue: with three queues the
second and the third are never polled (`program_order_starves`).
-/
import Mixdk.Lib.StoreLog
import Mixdk.Pipeline.NvmOrder

namespace Mixdk

open Transition StoreLog

set_option autoImplicit false

/-! ## The log -/

def NvmEvent.event : NvmEvent → Event SegIdx Nat Block
  | .loaded idx block data => .loaded idx block data
  | .stored idx block data => .stored idx block data

/-- The accesses to the NVM region. -/
def Pipeline.log (s : Pipeline) : List (Event SegIdx Nat Block) :=
  s.history.nvmLog.map NvmEvent.event

/-- The request writes the block. -/
def Request.Writes (b : Nat) : Request → Prop
  | .read .. => False
  | .write _ len offset _ _ => offset ≤ b ∧ b < offset + len

/-- The request fills the address. -/
def Request.Fills (a : Nat) : Request → Prop
  | .read dst len _ _ _ _ => ∃ block ∈ addresses dst len, block ≤ a ∧ a < block + BLOCK_SIZE
  | .write .. => False

/-- No read of the batch fills an address of the block at `src`. -/
def LeftAlone (requests : Nat → List Request) (src : Nat) : Prop :=
  ∀ i, ∀ request ∈ requests i, ∀ a, src ≤ a → a < src + BLOCK_SIZE → ¬ request.Fills a

/-- An access and the deed it records: the data stored is the caller's, if the caller leaves its
buffer alone. -/
inductive Records (mem : Mem) (requests : Nat → List Request) :
    Event SegIdx Nat Block → Deed → Prop
  | read (i : SegIdx) (dst block : Nat) (data : Block) :
      Records mem requests (.loaded i block data) (.nvmRead dst block)
  | write {i : SegIdx} {src block : Nat} {data : Block}
      (kept : LeftAlone requests src → data = mem.load src) :
      Records mem requests (.stored i block data) (.nvmWrite src block)

theorem records_mem {mem : Mem} {requests : Nat → List Request}
    {accesses : List (Event SegIdx Nat Block)} {deeds : List Deed}
    (records : List.Forall₂ (Records mem requests) accesses deeds) {access : Event SegIdx Nat Block}
    (member : access ∈ accesses) : ∃ deed ∈ deeds, Records mem requests access deed := by
  induction records with
  | nil => cases member
  | cons record _ ih =>
      rcases List.mem_cons.1 member with rfl | later
      · exact ⟨_, List.mem_cons_self, record⟩
      · obtain ⟨deed, inside, record⟩ := ih later
        exact ⟨deed, List.mem_cons_of_mem _ inside, record⟩

/-- The copies of a request of submit queue `i`, block by block. -/
def nvmCopies (i : Nat) (request : Request) : List Deed :=
  (nvmWorkerNvmTask (nvmTask i request)).filter Deed.isCopy

section

variable {dst src len offset flags ret type i b : Nat}

theorem nvmTask_read (nvm : (Request.read dst len offset flags ret type).Nvm) :
    nvmWorkerNvmTask (nvmTask i (.read dst len offset flags ret type)) =
      (List.range len).map (fun j => .nvmRead (dst + j * BLOCK_SIZE) (offset + j)) ++
        [.act (.addRet ret len)] := by
  have op : opCode (nvmTask i (.read dst len offset flags ret type)) = MIX_READ := by
    rw [nvmTask, handleTask_nvm (nvm.below i)]
    exact opCode_flags nvm.1
  rw [nvmWorkerNvmTask, if_pos op, nvmTask, handleTask_nvm (nvm.below i)]
  rfl

theorem nvmTask_write (nvm : (Request.write src len offset flags type).Nvm) :
    nvmWorkerNvmTask (nvmTask i (.write src len offset flags type)) =
      (List.range len).map (fun j => .nvmWrite (src + j * BLOCK_SIZE) (offset + j)) ++
        [.act (.nvmWriteBlockCompleted len)] := by
  have op : opCode (nvmTask i (.write src len offset flags type)) = MIX_WRITE := by
    rw [nvmTask, handleTask_nvm (nvm.below i)]
    exact opCode_flags nvm.1
  rw [nvmWorkerNvmTask, if_neg (by rw [op]; exact write_ne_read), if_pos op, nvmTask,
    handleTask_nvm (nvm.below i)]
  rfl

end

theorem Request.Nvm.fills {request : Request} (nvm : request.Nvm) {i dst block : Nat}
    (member : .nvmRead dst block ∈ nvmWorkerNvmTask (nvmTask i request)) {a : Nat}
    (low : dst ≤ a) (high : a < dst + BLOCK_SIZE) : request.Fills a := by
  cases request with
  | read buf len offset flags ret type =>
      rw [nvmTask_read nvm] at member
      obtain ⟨j, inside, rfl, -⟩ : ∃ j, j < len ∧ buf + j * BLOCK_SIZE = dst ∧ offset + j = block := by
        simpa using member
      exact ⟨_, List.mem_map_of_mem (List.mem_range.2 inside), low, high⟩
  | write =>
      rw [nvmTask_write nvm] at member
      simp at member

theorem Request.Nvm.writes {request : Request} (nvm : request.Nvm) {i src block : Nat}
    (member : .nvmWrite src block ∈ nvmWorkerNvmTask (nvmTask i request)) :
    request.Writes block := by
  cases request with
  | read =>
      rw [nvmTask_read nvm] at member
      simp at member
  | write buf len offset =>
      rw [nvmTask_write nvm] at member
      obtain ⟨j, inside, -, rfl⟩ : ∃ j, j < len ∧ buf + j * BLOCK_SIZE = src ∧ offset + j = block := by
        simpa using member
      exact ⟨Nat.le_add_right _ _, Nat.add_lt_add_left inside _⟩

/-! ## What a worker has done -/

def NvmPc.deeds : NvmPc → List Deed
  | .doing _ deeds => deeds
  | .poll | .full _ | .migrating _ => []

/-- All the deeds of the task in hand. -/
def NvmPc.program : NvmPc → List Deed
  | .doing task _ => nvmWorkerNvmTask task
  | .poll | .full _ | .migrating _ => []

/-- The accesses of a worker are the copies of its executed tasks, and of its task in hand what is
not left to do. -/
def InProgram (mem : Mem) (requests : Nat → List Request) (executed : List IoTask) (pc : NvmPc)
    (accesses : List (Event SegIdx Nat Block)) : Prop :=
  ∃ done, done ++ pc.deeds = pc.program ∧ List.Forall₂ (Records mem requests) accesses
    ((executed.flatMap nvmWorkerNvmTask ++ done).filter Deed.isCopy)

namespace InProgram

variable {mem : Mem} {requests : Nat → List Request} {executed : List IoTask} {task : IoTask}
  {deed : Deed} {rest : List Deed} {accesses : List (Event SegIdx Nat Block)}

theorem take (inProgram : InProgram mem requests executed .poll accesses) :
    InProgram mem requests executed (.doing task (nvmWorkerNvmTask task)) accesses := by
  obtain ⟨done, whole, records⟩ := inProgram
  obtain rfl : done = [] := (List.append_eq_nil_iff.1 whole).1
  exact ⟨[], rfl, records⟩

theorem count {a : Action}
    (inProgram : InProgram mem requests executed (.doing task (.act a :: rest)) accesses) :
    InProgram mem requests executed (.doing task rest) accesses := by
  obtain ⟨done, whole, records⟩ := inProgram
  refine ⟨done ++ [.act a], by simpa [NvmPc.deeds, NvmPc.program] using whole, ?_⟩
  simpa [Deed.isCopy] using records

theorem copy {access : Event SegIdx Nat Block}
    (inProgram : InProgram mem requests executed (.doing task (deed :: rest)) accesses)
    (copies : deed.isCopy = true) (record : Records mem requests access deed) :
    InProgram mem requests executed (.doing task rest) (accesses ++ [access]) := by
  obtain ⟨done, whole, records⟩ := inProgram
  refine ⟨done ++ [deed], by simpa [NvmPc.deeds, NvmPc.program] using whole, ?_⟩
  rw [← List.append_assoc, List.filter_append, List.filter_cons_of_pos copies]
  exact List.rel_append records (.cons record .nil)

theorem finish (inProgram : InProgram mem requests executed (.doing task []) accesses) :
    InProgram mem requests (executed ++ [task]) .poll accesses := by
  obtain ⟨done, whole, records⟩ := inProgram
  refine ⟨[], rfl, ?_⟩
  obtain rfl : done = nvmWorkerNvmTask task := (List.append_nil done).symm.trans whole
  simpa using records

/-- The accesses are a beginning of the copies of the tasks executed and in hand. -/
theorem prefix_ {pc : NvmPc} (inProgram : InProgram mem requests executed pc accesses)
    (nvm : pc.NvmOnly) : ∃ copies, copies <+: ((executed ++ pc.tasks).flatMap
      nvmWorkerNvmTask).filter Deed.isCopy ∧ List.Forall₂ (Records mem requests) accesses copies := by
  obtain ⟨done, whole, records⟩ := inProgram
  refine ⟨_, ?_, records⟩
  have program : pc.program = pc.tasks.flatMap nvmWorkerNvmTask := by
    cases pc with
    | poll => rfl
    | doing task deeds => simp [NvmPc.program, NvmPc.tasks]
    | full | migrating => exact nvm.elim
  rw [List.flatMap_append, ← program, ← whole, ← List.append_assoc]
  exact (List.prefix_append _ _).filter _

end InProgram

theorem storeBlocks_outside (mem : Mem) {dst a : Nat} (src : Nat → Block)
    (outside : ¬ (dst ≤ a ∧ a < dst + BLOCK_SIZE)) : mem.storeBlocks dst 1 src a = mem a := by
  rw [Mem.storeBlocks, if_neg]
  rwa [Nat.one_mul]

/-! ## Runs -/

/-- The log and the region of a state of a run. -/
structure Pipeline.Logged (m : Machine) (init : Nat → Block) (requests : Nat → List Request)
    (s : Pipeline) : Prop where
  posted : ∀ i, s.history.posted i ++ s.toPost i = requests i
  region : s.region = replay init s.log
  truthful : Truthful init s.log
  /-- Only the blocks of reads change in the callers' memory. -/
  mem : ∀ a, (∀ i, ∀ request ∈ requests i, ¬ request.Fills a) → s.m.mem a = m.mem a
  inProgram : ∀ i, InProgram m.mem requests (s.history.executed i) (s.station i).nvm (own i s.log)

namespace Pipeline

variable {submitQueueNum : Nat} {requests : Nat → List Request} {m : Machine}
  {init : Nat → Block} {s t : Pipeline} {idx : SegIdx}

/-- The task in hand is one that was posted to the worker's submit queue. -/
theorem NvmOnly.posted (only : s.NvmOnly submitQueueNum) {task : IoTask} {deeds : List Deed}
    (doing : (s.station idx).nvm = .doing task deeds) :
    ∃ request ∈ s.history.posted idx, nvmTask idx request = task := by
  have member : task ∈ (s.history.posted idx).map (nvmTask idx) := by
    rw [only.fifo idx]
    simp [underway, doing, NvmPc.tasks]
  exact List.mem_map.1 member

theorem Logged.request (logged : s.Logged m init requests) {i : Nat} {request : Request}
    (member : request ∈ s.history.posted i) : request ∈ requests i :=
  logged.posted i ▸ List.mem_append_left _ member

/-- The callers' memory at a block that is left alone. -/
theorem Logged.load (logged : s.Logged m init requests) {src : Nat}
    (alone : LeftAlone requests src) : s.m.mem.load src = m.mem.load src := by
  funext j
  exact logged.mem _ fun i request member =>
    alone i request member _ (Nat.le_add_right _ _) (Nat.add_lt_add_left j.isLt _)

/-- A worker that is at its place in its own program leaves the others at theirs. -/
theorem Logged.others (logged : s.Logged m init requests) {executed : List IoTask}
    {station : Station} {log : List (Event SegIdx Nat Block)}
    (inProgram : InProgram m.mem requests executed station.nvm (own idx log))
    (rest : ∀ j, j ≠ idx → own j log = own j s.log) (j : SegIdx) :
    InProgram m.mem requests (Function.update s.history.executed idx executed j)
      (Function.update s.station idx station j).nvm (own j log) := by
  by_cases same : j = idx
  · subst same
    simpa only [Function.update_self] using inProgram
  · simpa only [Function.update_of_ne same, rest j same] using logged.inProgram j

/-- The same, before the task is done. -/
theorem Logged.inTask (logged : s.Logged m init requests) {station : Station}
    {log : List (Event SegIdx Nat Block)}
    (inProgram : InProgram m.mem requests (s.history.executed idx) station.nvm (own idx log))
    (rest : ∀ j, j ≠ idx → own j log = own j s.log) (j : SegIdx) :
    InProgram m.mem requests (s.history.executed j) (Function.update s.station idx station j).nvm
      (own j log) := by
  have all := logged.others inProgram rest j
  rwa [Function.update_eq_self] at all

/-- A block read from the region is logged as loaded, and stored where the request fills. -/
theorem Logged.read (logged : s.Logged m init requests) (only : s.NvmOnly submitQueueNum)
    (nvm : ∀ i, ∀ request ∈ requests i, request.Nvm) {task : IoTask} {dst block : Nat}
    {rest : List Deed} (doing : (s.station idx).nvm = .doing task (.nvmRead dst block :: rest)) :
    Logged m init requests
      { s.setStation idx { s.station idx with nvm := .doing task rest } with
        m := { s.m with mem := s.m.mem.storeBlocks dst 1 fun _ => s.region block }
        history := { s.history with
          copied := s.history.copied ++ [(task.ret, dst)]
          nvmLog := s.history.nvmLog ++ [.loaded idx block (s.region block)] } } := by
  have here := logged.inProgram idx
  obtain ⟨request, posted, task_eq⟩ := only.posted doing
  rw [doing] at here
  have log : (s.history.nvmLog ++ [NvmEvent.loaded idx block (s.region block)]).map NvmEvent.event =
      s.log ++ [.loaded idx block (s.region block)] := List.map_append
  have mine : InProgram m.mem requests (s.history.executed idx) (.doing task rest)
      (own idx (s.log ++ [.loaded idx block (s.region block)])) := by
    rw [own_snoc, writer_loaded, if_pos rfl]
    exact here.copy rfl (.read idx dst block _)
  refine
    { logged with
      region := ?_
      truthful := ?_
      mem := fun a free => ?_
      inProgram := fun j => ?_ }
  · exact logged.region.trans ((congrArg (replay init) log).trans (replay_snoc ..)).symm
  · have truthful := Truthful.loaded logged.truthful idx block
    rw [← logged.region, ← log] at truthful
    exact truthful
  · have member : .nvmRead dst block ∈ nvmWorkerNvmTask (nvmTask idx request) :=
      task_eq ▸ (only.doing doing).2.subset List.mem_cons_self
    have inBatch := logged.request posted
    have outside : ¬ (dst ≤ a ∧ a < dst + BLOCK_SIZE) := fun inside =>
      free idx request inBatch ((nvm idx request inBatch).fills member inside.1 inside.2)
    exact (storeBlocks_outside s.m.mem (fun _ => s.region block) outside).trans (logged.mem a free)
  · show InProgram _ _ _ _ (own j ((s.history.nvmLog ++ _).map NvmEvent.event))
    rw [log]
    refine logged.inTask mine (fun j other => ?_) j
    rw [own_snoc, writer_loaded, if_neg (Ne.symm other), List.append_nil]

/-- A block written to the region is logged as stored, with the caller's data. -/
theorem Logged.write (logged : s.Logged m init requests) {task : IoTask} {src block : Nat}
    {rest : List Deed} (doing : (s.station idx).nvm = .doing task (.nvmWrite src block :: rest)) :
    Logged m init requests
      { s.setStation idx { s.station idx with nvm := .doing task rest } with
        region := Function.update s.region block (s.m.mem.load src)
        history := { s.history with
          stored := s.history.stored ++ [src]
          nvmLog := s.history.nvmLog ++ [.stored idx block (s.m.mem.load src)] } } := by
  have here := logged.inProgram idx
  rw [doing] at here
  have log : (s.history.nvmLog ++ [NvmEvent.stored idx block (s.m.mem.load src)]).map NvmEvent.event =
      s.log ++ [.stored idx block (s.m.mem.load src)] := List.map_append
  have mine : InProgram m.mem requests (s.history.executed idx) (.doing task rest)
      (own idx (s.log ++ [.stored idx block (s.m.mem.load src)])) := by
    rw [own_snoc, writer_stored, if_pos rfl]
    exact here.copy rfl (.write logged.load)
  refine { logged with region := ?_, truthful := ?_, inProgram := fun j => ?_ }
  · have after := (congrArg (replay init) log).trans (replay_snoc ..)
    rw [← logged.region] at after
    exact after.symm
  · have truthful := Truthful.stored logged.truthful idx block (s.m.mem.load src)
    rw [← log] at truthful
    exact truthful
  · show InProgram _ _ _ _ (own j ((s.history.nvmLog ++ _).map NvmEvent.event))
    rw [log]
    refine logged.inTask mine (fun j other => ?_) j
    rw [own_snoc, writer_stored, if_neg (Ne.symm other), List.append_nil]

theorem Logged.worker (logged : s.Logged m init requests) (only : s.NvmOnly submitQueueNum)
    (nvm : ∀ i, ∀ request ∈ requests i, request.Nvm) (step : WorkerCase s idx t) :
    t.Logged m init requests := by
  have here := logged.inProgram idx
  cases step with
  | turn odd => exact { logged with inProgram := logged.inTask here fun _ _ => rfl }
  | take poll queue =>
      rw [poll] at here
      exact { logged with inProgram := logged.inTask here.take fun _ _ => rfl }
  | @count task a rest counts doing =>
      rw [doing] at here
      have mem : (s.m.perform a).mem = s.m.mem := by
        cases a with
        | addRet | nvmWriteBlockCompleted | postTaskToSsd | writeToBuffer | bufferClear => rfl
        | readFromBuffer => exact counts.elim
      exact { logged with
        mem := fun a free => (congrFun mem a).trans (logged.mem a free)
        inProgram := logged.inTask here.count fun _ _ => rfl }
  | read doing => exact logged.read only nvm doing
  | write doing => exact logged.write doing
  | finish doing =>
      rw [doing] at here
      exact { logged with inProgram := logged.others here.finish fun _ _ => rfl }

theorem Logged.front (logged : s.Logged m init requests) {turn : Turn}
    (step : FrontStep submitQueueNum s turn t) : t.Logged m init requests := by
  have stations {idx : SegIdx} {station : Station} (same : station.nvm = (s.station idx).nvm)
      (i : SegIdx) : InProgram m.mem requests (s.history.executed i)
        (Function.update s.station idx station i).nvm (own i s.log) :=
    logged.inTask (same ▸ logged.inProgram idx) (fun _ _ => rfl) i
  cases step with
  | @post i request rest next queue =>
      refine { logged with posted := fun j => ?_ }
      have before := logged.posted j
      by_cases here : j = i
      · subst here
        rw [next] at before
        simpa [Function.update_self] using before
      · simpa [Function.update_of_ne here] using before
  | free | skip | schedule => exact { logged with }
  | toNvm | toBuffer => exact { logged with inProgram := stations rfl }

theorem Logged.step (logged : s.Logged m init requests) (only : s.NvmOnly submitQueueNum)
    (nvm : ∀ i, ∀ request ∈ requests i, request.Nvm) {turn : Turn}
    (cases_ : StepCases submitQueueNum s turn t) : t.Logged m init requests := by
  cases cases_ with
  | front step => exact logged.front step
  | nvm idx _ step => exact logged.worker only nvm (only.worker_cases step)
  | ssd idx _ step => exact absurd step only.no_ssd
  | migrate _ _ migration =>
      rw [only.migration] at migration
      cases migration

end Pipeline

theorem start_nvmOnly (m : Machine) (region : Nat → Block) {requests : Nat → List Request}
    (submitQueueNum : Nat) (nvm : ∀ i, ∀ request ∈ requests i, request.Nvm) :
    (Pipeline.start m region requests).NvmOnly submitQueueNum where
  toPost := nvm
  submitted := fun _ => nofun
  hand := nofun
  station := fun _ => ⟨rfl, nofun, trivial, rfl, rfl⟩
  migration := rfl
  fifo := fun _ => rfl

theorem start_logged (m : Machine) (region : Nat → Block) (requests : Nat → List Request) :
    (Pipeline.start m region requests).Logged m region requests where
  posted := fun _ => rfl
  region := rfl
  truthful := .nil
  mem := fun _ _ => rfl
  inProgram := fun _ => ⟨[], rfl, .nil⟩

/-! ## Polling -/

namespace Pipeline

/-- However long the scheduler polls it finds nothing, and no nvm_worker has anything to do. -/
structure Still (submitQueueNum : Nat) (s : Pipeline) : Prop where
  submitted : ∀ k, s.submitQueue ((pollNext submitQueueNum)^[k] s.idx) = []
  hand : s.hand = []
  station : ∀ idx, (s.station idx).nvmQueue = [] ∧ (s.station idx).nvm = .poll

/-- A request is posted to a queue that the scheduler polls. -/
def PostsPolled (submitQueueNum : Nat) (_ : Pipeline) : Turn → Prop
  | .post i => i < pollPeriod submitQueueNum
  | .free _ _ | .scheduler | .nvm _ | .ssd _ | .migrate _ => True

instance (submitQueueNum : Nat) (s : Pipeline) : DecidablePred (s.PostsPolled submitQueueNum)
  | .post i => inferInstanceAs (Decidable (i < pollPeriod submitQueueNum))
  | .free _ _ | .scheduler | .nvm _ | .ssd _ | .migrate _ => .isTrue trivial

variable {submitQueueNum : Nat} {s t : Pipeline}

/-- The scheduler stays among the queues it polls. -/
theorem idx_step (pos : 0 < submitQueueNum) (word : submitQueueNum < 2 ^ 8)
    (inside : s.idx < pollPeriod submitQueueNum) {turn : Turn}
    (cases_ : StepCases submitQueueNum s turn t) : t.idx < pollPeriod submitQueueNum := by
  have next : pollNext submitQueueNum s.idx < pollPeriod submitQueueNum := by
    rw [pollNext_eq pos word inside]
    exact Nat.mod_lt _ (pollPeriod_pos pos)
  cases cases_ with
  | front step =>
      cases step with
      | skip | schedule => exact next
      | post | free | toNvm | toBuffer => exact inside
  | nvm idx _ step => cases step <;> exact inside
  | ssd idx _ step => cases step <;> exact inside
  | migrate _ _ _ _ result => exact result ▸ inside

theorem pollNext_iterate (pos : 0 < submitQueueNum) (word : submitQueueNum < 2 ^ 8) {idx : Nat}
    (inside : idx < pollPeriod submitQueueNum) (k : Nat) :
    (pollNext submitQueueNum)^[k] idx = (idx + k) % pollPeriod submitQueueNum := by
  induction k with
  | zero => exact (Nat.mod_eq_of_lt inside).symm
  | succ k ih =>
      rw [Function.iterate_succ_apply', ih,
        pollNext_eq pos word (Nat.mod_lt _ (pollPeriod_pos pos)), Nat.mod_add_mod, Nat.add_assoc]

/-- In a still state the queues that are polled are empty. -/
theorem Still.polled (still : s.Still submitQueueNum) (pos : 0 < submitQueueNum)
    (word : submitQueueNum < 2 ^ 8) (inside : s.idx < pollPeriod submitQueueNum) {i : Nat}
    (below : i < pollPeriod submitQueueNum) : s.submitQueue i = [] := by
  have reached := still.submitted (pollPeriod submitQueueNum - s.idx + i)
  rw [pollNext_iterate pos word inside] at reached
  have there : (s.idx + (pollPeriod submitQueueNum - s.idx + i)) % pollPeriod submitQueueNum =
      i := by
    rw [← Nat.add_assoc, Nat.add_sub_of_le (Nat.le_of_lt inside), Nat.add_mod_left,
      Nat.mod_eq_of_lt below]
  rwa [there] at reached

/-- A queue that is not polled keeps what is posted to it. -/
theorem unpolled_step (inside : s.idx < pollPeriod submitQueueNum) {i : Nat}
    (beyond : pollPeriod submitQueueNum ≤ i)
    (kept : (s.submitQueue i).length = (s.history.posted i).length) {turn : Turn}
    (cases_ : StepCases submitQueueNum s turn t) :
    (t.submitQueue i).length = (t.history.posted i).length := by
  cases cases_ with
  | front step =>
      cases step with
      | @post j request rest _ _ =>
          by_cases here : i = j
          · subst here
            simp [kept]
          · simpa [Function.update_of_ne here] using kept
      | schedule =>
          have other : i ≠ s.idx := by omega
          simpa [Function.update_of_ne other] using kept
      | free | skip | toNvm | toBuffer => exact kept
  | nvm idx _ step =>
      obtain ⟨-, submitted, posted, -⟩ := step.calls
      rw [submitted, posted, kept]
  | ssd idx _ step =>
      obtain ⟨-, submitted, posted, -⟩ := step.calls
      rw [submitted, posted, kept]
  | migrate _ _ _ _ result => exact result ▸ kept

/-- With guarded posts nothing is ever posted to such a queue. -/
theorem posted_step {i : Nat} (beyond : pollPeriod submitQueueNum ≤ i)
    (none_ : s.history.posted i = []) {turn : Turn} (polled : s.PostsPolled submitQueueNum turn)
    (cases_ : StepCases submitQueueNum s turn t) : t.history.posted i = [] := by
  cases cases_ with
  | front step =>
      cases step with
      | @post j =>
          have other : i ≠ j := fun same =>
            absurd (same ▸ polled : i < pollPeriod submitQueueNum) (Nat.not_lt.2 beyond)
          simpa [Function.update_of_ne other] using none_
      | free | skip | schedule | toNvm | toBuffer => exact none_
  | nvm idx _ step => rw [step.calls.2.2.1, none_]
  | ssd idx _ step => rw [step.calls.2.2.1, none_]
  | migrate _ _ _ _ result => exact result ▸ none_

/-! ## Program order -/

/-- The NVM tasks of each submit queue run in the order of their posts. -/
structure ProgramOrder (submitQueueNum : Nat) (m : Machine) (region : Nat → Block)
    (requests : Nat → List Request) (s : Pipeline) : Prop where
  /-- The tasks executed are the first ones posted, each once and in order. -/
  executed : ∀ i : SegIdx, s.history.executed i <+: (s.history.posted i).map (nvmTask i)
  /-- So are the blocks copied. -/
  copies : ∀ i : SegIdx, ∃ copies, copies <+: (s.history.posted i).flatMap (nvmCopies i) ∧
    List.Forall₂ (Records m.mem requests) (own i s.log) copies
  /-- A read returns the latest data its submitter wrote, where no other submitter writes. -/
  reads : ∀ i block data before after,
    own i s.log = before ++ .loaded i block data :: after →
      (∀ j : SegIdx, j ≠ i → ∀ request ∈ requests j, ¬ request.Writes block) →
        data = (latest block before).getD (region block)
  /-- When the threads have nothing left to do, every task is executed. -/
  complete : s.Still submitQueueNum → ∀ i : SegIdx,
    s.history.executed i = (s.history.posted i).map (nvmTask i)

variable {requests : Nat → List Request} {m : Machine} {init : Nat → Block}

theorem NvmOnly.executed (only : s.NvmOnly submitQueueNum) (i : SegIdx) :
    s.history.executed i <+: (s.history.posted i).map (nvmTask i) := by
  rw [only.fifo i]
  exact List.prefix_append _ _

theorem Logged.copies (logged : s.Logged m init requests) (only : s.NvmOnly submitQueueNum)
    (i : SegIdx) : ∃ copies, copies <+: (s.history.posted i).flatMap (nvmCopies i) ∧
      List.Forall₂ (Records m.mem requests) (own i s.log) copies := by
  obtain ⟨copies, first, records⟩ := (logged.inProgram i).prefix_ (only.station i).nvm
  refine ⟨copies, first.trans ?_, records⟩
  have tasks : s.history.executed i ++ (s.station i).nvm.tasks <+:
      (s.history.posted i).map (nvmTask i) := by
    rw [only.fifo i, underway, List.append_assoc, List.append_assoc, ← List.append_assoc]
    exact List.prefix_append _ _
  have whole := (tasks.flatMap nvmWorkerNvmTask).filter Deed.isCopy
  rw [List.flatMap_map, List.filter_flatMap] at whole
  rwa [List.filter_flatMap] at whole ⊢

/-- Only a submitter that writes the block stores to it. -/
theorem Logged.mine (logged : s.Logged m init requests) (only : s.NvmOnly submitQueueNum)
    (nvm : ∀ i, ∀ request ∈ requests i, request.Nvm) {i : SegIdx} {block : Nat}
    (private_ : ∀ j : SegIdx, j ≠ i → ∀ request ∈ requests j, ¬ request.Writes block) (j : SegIdx)
    (data : Block) (stored : .stored j block data ∈ s.log) : j = i := by
  by_contra other
  obtain ⟨copies, first, records⟩ := logged.copies only j
  have mine : .stored j block data ∈ own j s.log := List.mem_filter.2 ⟨stored, by simp⟩
  obtain ⟨deed, member, record⟩ := records_mem records mine
  obtain ⟨request, posted, copy⟩ := List.mem_flatMap.1 (first.subset member)
  have inBatch := logged.request posted
  cases record
  exact private_ j other request inBatch ((nvm j request inBatch).writes (List.mem_filter.1 copy).1)

/-- In a still state nothing is under way in a queue that is polled. -/
theorem NvmOnly.settled (only : s.NvmOnly submitQueueNum) (still : s.Still submitQueueNum)
    {i : SegIdx} (empty : s.submitQueue i = []) :
    s.history.executed i = (s.history.posted i).map (nvmTask i) := by
  obtain ⟨queue, poll⟩ := still.station i
  rw [only.fifo i]
  simp [underway, queue, poll, still.hand, empty, handTasks, NvmPc.tasks]

end Pipeline

theorem queues_word {submitQueueNum : Nat} (accepted : mixdkInit submitQueueNum = 0) :
    0 < submitQueueNum ∧ submitQueueNum < 2 ^ 8 := by
  unfold mixdkInit at accepted
  split at accepted
  · cases accepted
  · omega

/-- **Each submitter's NVM tasks run in program order, where its queue is polled.** -/
theorem program_order {submitQueueNum capacity : Nat} (accepted : mixdkInit submitQueueNum = 0)
    {m : Machine} {region : Nat → Block} {requests : Nat → List Request}
    (nvm : ∀ i, ∀ request ∈ requests i, request.Nvm) {turns : List Pipeline.Turn} {s : Pipeline}
    (run : Run (Pipeline.step submitQueueNum capacity) (Pipeline.PostsPolled submitQueueNum)
      (.start m region requests) turns s) : s.ProgramOrder submitQueueNum m region requests := by
  obtain ⟨pos, word⟩ := queues_word accepted
  obtain ⟨only, logged, inside, unposted⟩ : s.NvmOnly submitQueueNum ∧
      s.Logged m region requests ∧ s.idx < pollPeriod submitQueueNum ∧
      ∀ i, pollPeriod submitQueueNum ≤ i → s.history.posted i = [] := by
    refine run.invariant (I := fun s => s.NvmOnly submitQueueNum ∧ s.Logged m region requests ∧
      s.idx < pollPeriod submitQueueNum ∧
      ∀ i, pollPeriod submitQueueNum ≤ i → s.history.posted i = []) ?_
      ⟨start_nvmOnly m region submitQueueNum nvm, start_logged m region requests,
        pollPeriod_pos pos, fun _ _ => rfl⟩
    rintro s turn t ⟨only, logged, inside, unposted⟩ polled stepped
    have cases_ := Pipeline.step_cases stepped
    exact ⟨only.step cases_, logged.step only nvm cases_, Pipeline.idx_step pos word inside cases_,
      fun i beyond => Pipeline.posted_step beyond (unposted i beyond) polled cases_⟩
  constructor
  · exact only.executed
  · exact logged.copies only
  · intro i block data before after split private_
    exact logged.truthful.own_load (logged.mine only nvm private_) split
  · intro still i
    by_cases below : (i : Nat) < pollPeriod submitQueueNum
    · exact only.settled still (still.polled pos word inside below)
    · have none_ := unposted i (Nat.le_of_not_lt below)
      have nothing := only.executed i
      rw [none_] at nothing ⊢
      exact List.prefix_nil.1 nothing

/-- What is posted to a queue that is not polled is never executed. -/
theorem unpolled_never {submitQueueNum capacity : Nat} (accepted : mixdkInit submitQueueNum = 0)
    {m : Machine} {region : Nat → Block} {requests : Nat → List Request}
    (nvm : ∀ i, ∀ request ∈ requests i, request.Nvm) {turns : List Pipeline.Turn} {s : Pipeline}
    (ran : exec (Pipeline.step submitQueueNum capacity) (.start m region requests) turns = some s)
    {i : SegIdx} (beyond : pollPeriod submitQueueNum ≤ i) : s.history.executed i = [] := by
  obtain ⟨pos, word⟩ := queues_word accepted
  obtain ⟨only, inside, kept⟩ : s.NvmOnly submitQueueNum ∧ s.idx < pollPeriod submitQueueNum ∧
      (s.submitQueue i).length = (s.history.posted i).length := by
    refine exec_invariant (I := fun s => s.NvmOnly submitQueueNum ∧
      s.idx < pollPeriod submitQueueNum ∧
      (s.submitQueue i).length = (s.history.posted i).length) ?_ ran
      ⟨start_nvmOnly m region submitQueueNum nvm, pollPeriod_pos pos, rfl⟩
    rintro s turn t ⟨only, inside, kept⟩ stepped
    have cases_ := Pipeline.step_cases stepped
    exact ⟨only.step cases_, Pipeline.idx_step pos word inside cases_,
      Pipeline.unpolled_step inside beyond kept cases_⟩
  have lengths := congrArg List.length (only.fifo i)
  simp only [Pipeline.underway, List.length_append, List.length_map] at lengths
  exact List.eq_nil_of_length_eq_zero (by omega)

/-- A write to submit queue 1 of two, and a read of the block. -/
def writeThenRead (i : Nat) : List Request :=
  if i = 1 then [.write 4096 1 7 0 0, .read 0 1 7 0 8 0] else []

theorem writeThenRead_order : ∃ turns s,
    Run (Pipeline.step 2 4) (Pipeline.PostsPolled 2) (.fresh writeThenRead) turns s ∧
    (s.history.executed 1).length = 2 ∧
    s.ProgramOrder 2 (.blank (mixMetadataInit BUFFER_BLOCK_NUM)
      { data := fun _ _ => 0, metas := fun _ => ⟨0, 0, 0, 0⟩ }) (fun _ _ => 0) writeThenRead := by
  have executed : ((exec (fun s turn =>
        if decide (s.PostsPolled 2 turn) then Pipeline.step 2 4 s turn else none)
      (.fresh writeThenRead) ([.post 1, .post 1] ++ List.replicate 6 .scheduler ++
        List.replicate 10 (.nvm 1))).map fun s => (s.history.executed 1).length) = some 2 := by
    decide +kernel
  obtain ⟨s, ran, both⟩ := Option.map_eq_some_iff.1 executed
  have run := Run.of_checked (fun _ _ => of_decide_eq_true) ran
  refine ⟨_, s, run, both, program_order rfl ?_ run⟩
  intro i request member
  unfold writeThenRead at member
  split at member
  · rcases List.mem_pair.1 member with rfl | rfl
    · exact ⟨rfl, by decide⟩
    · exact ⟨rfl, by decide⟩
  · cases member

/-- A write to submit queue 1 of three. -/
def secondOfThree (i : Nat) : List Request := if i = 1 then [.write 4096 1 7 0 0] else []

/-- Of three queues the second is never polled: its task waits, and nothing else is to be done. -/
theorem program_order_starves : mixdkInit 3 = 0 ∧
    (∀ i, ∀ request ∈ secondOfThree i, request.Nvm) ∧
    ∃ s, exec (Pipeline.step 3 4) (.fresh secondOfThree) [.post 1] = some s ∧ s.Still 3 ∧
      s.history.posted 1 = [.write 4096 1 7 0 0] ∧ s.history.executed 1 = [] ∧
      ¬ s.ProgramOrder 3 (.blank (mixMetadataInit BUFFER_BLOCK_NUM)
        { data := fun _ _ => 0, metas := fun _ => ⟨0, 0, 0, 0⟩ }) (fun _ _ => 0) secondOfThree := by
  have posted : (exec (Pipeline.step 3 4) (.fresh secondOfThree) [.post 1]).map (fun s =>
      decide (s.idx = 0 ∧ s.submitQueue 0 = [] ∧ s.hand = [] ∧ (∀ idx, s.station idx = .idle) ∧
        s.history.posted 1 = [.write 4096 1 7 0 0] ∧ s.history.executed 1 = [])) = some true := by
    decide +kernel
  obtain ⟨s, ran, fields⟩ := Option.map_eq_some_iff.1 posted
  obtain ⟨idx, queue, hand, idle, waits, executed⟩ := of_decide_eq_true fields
  have still : s.Still 3 := by
    refine ⟨fun k => ?_, hand, fun i => by rw [idle i]; exact ⟨rfl, rfl⟩⟩
    have fixed : pollNext 3 0 = 0 := by decide
    rw [idx, Function.iterate_fixed fixed, queue]
  refine ⟨rfl, ?_, s, ran, still, waits, executed, fun order => ?_⟩
  · intro i request member
    unfold secondOfThree at member
    split at member
    · rw [List.mem_singleton.1 member]
      exact ⟨rfl, by decide⟩
    · cases member
  · have complete := order.complete still 1
    rw [executed] at complete
    have nothing : s.history.posted 1 = [] := List.map_eq_nil_iff.1 complete.symm
    rw [waits] at nothing
    cases nothing

end Mixdk
