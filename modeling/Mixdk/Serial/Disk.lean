/-
# Serial.Disk -- the device is a disk

What MIXDK is for: a disk, one block after another, the low ones in the NVM region and the others
on the SSD.  `Storage.disk` is the disk that a machine shows, wherever it keeps a block -- in the
buffer or on the SSD -- and the callers' memory; `Disk.handle` is what a request does to it.

The tasks of a request, one after another, do to the machine's disk what the request should
(`Post.Transfers.transfer`, `doSchedule_disk`), as long as no block gets lost (`LosesNothing`).  With the serial order of `Serial.Equivalence`, a batch that the
threads carry out in any interleaving has the effect of its requests on a disk, one after another
(`pipeline_disk`).
-/
import Mixdk.Serial.Equivalence
import Mixdk.EndToEnd.ReadYourWrites

namespace Mixdk

open Transition Lanes

set_option autoImplicit false

/-! ## A disk -/

/-- The blocks of the device and the callers' memory. -/
@[ext] structure Disk where
  block : Nat → Block
  mem : Mem

/-- A read or a write of whole blocks. -/
def Disk.handle (d : Disk) (task : IoTask) : Disk :=
  if opCode task = MIX_READ then
    { d with mem := d.mem.storeBlocks task.buf task.len fun j => d.block (task.offset + j) }
  else if opCode task = MIX_WRITE then
    { d with block := setBlocks d.block task.offset task.len fun j =>
        d.mem.load (task.buf + j * BLOCK_SIZE) }
  else d

theorem Disk.handle_read (d : Disk) {task : IoTask} (read : opCode task = MIX_READ) :
    d.handle task =
      { d with mem := d.mem.storeBlocks task.buf task.len fun j => d.block (task.offset + j) } :=
  if_pos read

theorem Disk.handle_write (d : Disk) {task : IoTask} (write : opCode task = MIX_WRITE) :
    d.handle task =
      { d with block := setBlocks d.block task.offset task.len fun j =>
          d.mem.load (task.buf + j * BLOCK_SIZE) } := by
  have notRead : opCode task ≠ MIX_READ := write ▸ write_ne_read
  rw [handle, if_neg notRead, if_pos write]

/-- The NVM region's blocks before those of the SSD. -/
def placed (low high : Nat → Block) : Nat → Block := fun b =>
  if b < SCHEDULER_THRESHOLD then low b else high (b - SCHEDULER_THRESHOLD)

/-- The blocks that a reader finds. -/
def Storage.disk (d : Storage) : Disk :=
  { block := placed d.region d.m.blockContent
    mem := d.m.mem }

/-- The post in the numbers of the device. -/
def Post.onDevice : Post → IoTask
  | .nvm task => task
  | .buffer _ task => { task with offset := task.offset + SCHEDULER_THRESHOLD }

/-- A write that loses no block. -/
def LosesNothing (md : Metadata) : Post → Prop
  | .nvm _ => True
  | .buffer idx task => opCode task = MIX_WRITE → WriteSafe md task idx

section

variable {P : Nat} {d e : Storage} {disk : Disk} {task : IoTask} {p : Post} {b n k : Nat}

theorem losesNothing_local : Post.Local LosesNothing := by
  intro md md' p size same safe
  cases p with
  | nvm => trivial
  | buffer idx task =>
      have segment := same idx rfl
      intro write
      have here := safe write
      simp only [WriteSafe, SlotSafe, ClearsWhole] at here ⊢
      simp only [mixBufferBlockTest_congr size segment, size, segment]
      exact here

/-! ## The two regions -/

theorem placed_low {low high : Nat → Block} (below : b < SCHEDULER_THRESHOLD) :
    placed low high b = low b := if_pos below

theorem placed_high (low high : Nat → Block) (b : Nat) :
    placed low high (b + SCHEDULER_THRESHOLD) = high b := by
  rw [placed, if_neg (Nat.not_lt.2 (Nat.le_add_left _ _)), Nat.add_sub_cancel]

theorem setBlocks_low {low high src : Nat → Block} (below : b + n ≤ SCHEDULER_THRESHOLD) :
    placed (setBlocks low b n src) high = setBlocks (placed low high) b n src := by
  funext c
  by_cases here : b ≤ c ∧ c < b + n
  · rw [placed_low (Nat.lt_of_lt_of_le here.2 below), setBlocks_inside here.1 here.2,
      setBlocks_inside here.1 here.2]
  · rw [setBlocks_outside here, placed, setBlocks_outside here, placed]

theorem setBlocks_high {low high src : Nat → Block} :
    placed low (setBlocks high b n src) =
      setBlocks (placed low high) (b + SCHEDULER_THRESHOLD) n src := by
  funext c
  by_cases below : c < SCHEDULER_THRESHOLD
  · rw [placed_low below, setBlocks_outside (by omega), placed_low below]
  · obtain ⟨c, rfl⟩ := Nat.exists_eq_add_of_le' (Nat.not_lt.1 below)
    rw [placed_high]
    by_cases here : b ≤ c ∧ c < b + n
    · rw [setBlocks_inside here.1 here.2, setBlocks_inside (by omega) (by omega),
        Nat.add_sub_add_right]
    · rw [setBlocks_outside here, setBlocks_outside (by omega), placed_high]

/-! ## Parts of a request -/

/-- A range of a request in two parts. -/
theorem Disk.handle_parts (disk : Disk) (low : task.offset ≤ b) :
    (disk.handle (postTask task b n)).handle (postTask task (b + n) k) =
      disk.handle (postTask task b (n + k)) := by
  have buf : task.buf + (b + n - task.offset) * BLOCK_SIZE =
      task.buf + (b - task.offset) * BLOCK_SIZE + n * BLOCK_SIZE := by
    rw [Nat.add_assoc, ← Nat.add_mul]
    congr 2
    omega
  have op : ∀ b n, opCode (postTask task b n) = opCode task := fun _ _ => rfl
  unfold Disk.handle
  rw [op, op, op]
  split
  next =>
    simp only [postTask, buf, Nat.add_assoc b n]
    rw [Mem.storeBlocks_add _ _ _ _ fun j => disk.block (b + j)]
  next =>
    split
    next =>
      simp only [postTask, buf]
      rw [← setBlocks_add _ _ _ _ fun j =>
        disk.mem.load (task.buf + (b - task.offset) * BLOCK_SIZE + j * BLOCK_SIZE)]
      simp only [Nat.add_mul, Nat.add_assoc]
    next => rfl

/-- What a request does depends on its buffer, its blocks and its opcode alone. -/
theorem Disk.handle_congr {t u : IoTask} (disk : Disk) (op : t.opcode = u.opcode)
    (buf : t.buf = u.buf) (len : t.len = u.len) (offset : t.offset = u.offset) :
    disk.handle t = disk.handle u := by
  unfold Disk.handle opCode
  rw [op, buf, len, offset]

theorem Disk.handle_empty (disk : Disk) (empty : task.len = 0) : disk.handle task = disk := by
  unfold Disk.handle
  rw [empty, Mem.storeBlocks_zero, setBlocks_zero]
  split
  next => rfl
  next => split <;> rfl

/-- The whole of a request is one part. -/
theorem Disk.handle_whole (disk : Disk) (task : IoTask) :
    disk.handle (postTask task task.offset task.len) = disk.handle task := by
  refine Disk.handle_congr disk rfl ?_ rfl rfl
  change task.buf + (task.offset - task.offset) * BLOCK_SIZE = task.buf
  rw [Nat.sub_self, Nat.zero_mul, Nat.add_zero]

def Disk.post (disk : Disk) (p : Post) : Disk := disk.handle p.onDevice

/-- The parts of an SSD request, from block `b` of the SSD on. -/
theorem parts_disk {handled : IoTask} {parts : List (SegIdx × IoTask)}
    (splits : Splits handled b parts) (disk : Disk) :
    (parts.map fun part => Post.buffer part.1 part.2).foldl Disk.post disk =
      disk.handle (postTask { handled with offset := handled.offset + SCHEDULER_THRESHOLD }
        (b + SCHEDULER_THRESHOLD) (handled.offset + handled.len - b)) := by
  induction splits generalizing disk with
  | done =>
      rw [Nat.sub_self]
      exact (Disk.handle_empty disk rfl).symm
  | @post offset len rest low high stripe later ih =>
      have one : disk.post (.buffer (segmentOf offset) (postTask handled offset len)) =
          disk.handle (postTask { handled with offset := handled.offset + SCHEDULER_THRESHOLD }
            (offset + SCHEDULER_THRESHOLD) len) := by
        rw [Disk.post, Post.onDevice, postTask, postTask, Nat.add_sub_add_right]
      have rest_ : len + (handled.offset + handled.len - (offset + len)) =
          handled.offset + handled.len - offset := by omega
      have next : offset + len + SCHEDULER_THRESHOLD = offset + SCHEDULER_THRESHOLD + len := by
        omega
      rw [List.map_cons, List.foldl_cons, ih, one, next,
        Disk.handle_parts disk (Nat.add_le_add_right low _), rest_]

/-- **The posts for a request do together what the request says.** -/
theorem doSchedule_disk (regional : task.Regional) (disk : Disk) :
    (doSchedule (handleTask task)).foldl Disk.post disk = disk.handle task := by
  rcases regional with below | ⟨above, -⟩
  · have posts : doSchedule (handleTask task) = [.nvm { task with type := NVM_TASK }] := by
      rw [handleTask_nvm below, doSchedule_nvm rfl]
    have same : disk.handle { task with type := NVM_TASK } = disk.handle task :=
      Disk.handle_congr disk rfl rfl rfl rfl
    exact (congrArg (List.foldl Disk.post disk) posts).trans same
  · have type : (handleTask task).type = SSD_TASK := by rw [handleTask_ssd above]
    have back : (handleTask task).offset + SCHEDULER_THRESHOLD = task.offset := by
      simp only [handleTask_ssd above]
      exact Nat.sub_add_cancel above
    have len : (handleTask task).len = task.len := by rw [handleTask_ssd above]
    have op : (handleTask task).opcode = task.opcode := by rw [handleTask_ssd above]
    have buf : (handleTask task).buf = task.buf := by rw [handleTask_ssd above]
    rw [doSchedule_ssd type, parts_disk (mixPostTaskToBuffer_splits _), Nat.add_sub_cancel_left]
    exact (Disk.handle_whole disk { handleTask task with
      offset := (handleTask task).offset + SCHEDULER_THRESHOLD }).trans
        (Disk.handle_congr disk op buf len back)

/-! ## NVM tasks -/

theorem nvmReads (d : Storage) (dst block n : Nat) :
    ((List.range n).map fun i => Deed.nvmRead (dst + i * BLOCK_SIZE) (block + i)).foldl
        Storage.perform d =
      { d with m := { d.m with mem := d.m.mem.storeBlocks dst n fun i => d.region (block + i) } } := by
  induction n with
  | zero => rw [Mem.storeBlocks_zero]; rfl
  | succ n ih =>
      rw [List.range_succ, List.map_append, List.foldl_append, ih, Mem.storeBlocks_succ]
      rfl

theorem nvmWrites (d : Storage) (src block n : Nat) :
    ((List.range n).map fun i => Deed.nvmWrite (src + i * BLOCK_SIZE) (block + i)).foldl
        Storage.perform d =
      { d with region :=
          setBlocks d.region block n fun i => d.m.mem.load (src + i * BLOCK_SIZE) } := by
  induction n with
  | zero => rw [setBlocks_zero]; rfl
  | succ n ih =>
      rw [List.range_succ, List.map_append, List.foldl_append, ih, ← setBlocks_add]
      refine congrArg (Storage.mk d.m) (funext fun b => ?_)
      rw [Function.update_apply]
      split
      next here =>
        rw [setBlocks_inside (Nat.le_of_eq here.symm) (by omega), here, Nat.sub_self]
        rfl
      next other =>
        rw [setBlocks_outside (b := b) (p := block + n) (n := 1) (by omega)]

/-- An NVM task does its transfer. -/
theorem nvmTask_disk (below : task.offset + task.len < SCHEDULER_THRESHOLD)
    (served : d.serve (.nvm task) = some e) :
    e.disk = d.disk.post (.nvm task) ∧ e.m.md = d.m.md := by
  rw [Storage.serve] at served
  split at served
  next =>
    obtain rfl := Option.some.inj served
    unfold nvmWorkerNvmTask Disk.post Disk.handle Post.onDevice
    split
    next =>
      rw [List.foldl_append, nvmReads]
      have mem : d.m.mem.storeBlocks task.buf task.len (fun j => d.region (task.offset + j)) =
          d.m.mem.storeBlocks task.buf task.len
            fun j => placed d.region d.m.blockContent (task.offset + j) := by
        refine Mem.storeBlocks_congr _ _ fun j small => (placed_low ?_).symm
        exact Nat.lt_of_le_of_lt (Nat.add_le_add_left (Nat.le_of_lt small) _) below
      exact ⟨Disk.ext rfl mem, rfl⟩
    next =>
      split
      next =>
        rw [List.foldl_append, nvmWrites]
        have block : placed (setBlocks d.region task.offset task.len
            (d.m.blocksAt task.buf)) d.m.blockContent =
              setBlocks (placed d.region d.m.blockContent) task.offset task.len
                (d.m.blocksAt task.buf) := setBlocks_low (Nat.le_of_lt below)
        exact ⟨Disk.ext block rfl, rfl⟩
      next => exact ⟨rfl, rfl⟩
  next => cases served

/-! ## SSD tasks -/

/-- Memory that has the blocks, and is the same elsewhere. -/
theorem Mem.eq_storeBlocks {m m' : Mem} {buf : Nat} {src : Nat → Block}
    (blocks : ∀ k < n, m'.load (buf + k * BLOCK_SIZE) = src k)
    (others : ∀ a, ¬ (buf ≤ a ∧ a < buf + n * BLOCK_SIZE) → m' a = m a) :
    m' = m.storeBlocks buf n src := by
  funext a
  by_cases inside : buf ≤ a ∧ a < buf + n * BLOCK_SIZE
  · have small := div_block_lt inside.2 inside.1
    have address : buf + (a - buf) / BLOCK_SIZE * BLOCK_SIZE + (a - buf) % BLOCK_SIZE = a := by
      rw [Nat.add_assoc, Nat.mul_comm, Nat.div_add_mod]
      omega
    rw [storeBlocks_inside inside.1 inside.2, ← blocks _ small]
    exact congrArg m' address.symm
  · rw [storeBlocks_outside inside]
    exact others a inside

/-- An SSD task that loses nothing does its transfer. -/
theorem ssdTask_disk {idx : SegIdx} (running : Running P d.m) (keyed : Keyed d.m.md)
    (suits : (Post.buffer idx task).Suits) (op : opCode task = MIX_READ ∨ opCode task = MIX_WRITE)
    (safe : LosesNothing d.m.md (.buffer idx task)) (served : d.serve (.buffer idx task) = some e) :
    e.disk = d.disk.post (.buffer idx task) ∧ Keyed e.m.md := by
  obtain ⟨m', ran, rfl⟩ := Option.map_eq_some_iff.1 served
  obtain ⟨-, inRange, stripe⟩ := suits
  unfold Disk.post Disk.handle
  have same : opCode (Post.buffer idx task).onDevice = opCode task := rfl
  rw [same]
  rcases op with read | write
  · have delivered := syncTask_read running.all inRange stripe read ran
    have mem : m'.mem = d.m.mem.storeBlocks task.buf task.len fun j =>
        placed d.region d.m.blockContent (task.offset + SCHEDULER_THRESHOLD + j) := by
      refine Mem.eq_storeBlocks (fun k small => ?_) fun a outside => ?_
      · rw [Nat.add_right_comm, placed_high]
        exact delivered.blocks k (Nat.zero_le k) small
      · have others := delivered.others a
        rw [Nat.zero_mul, Nat.add_zero, Nat.sub_zero] at others
        exact others outside
    have block : placed d.region m'.blockContent = placed d.region d.m.blockContent := by
      rw [delivered.readOnly.blockContent]
    rw [if_pos read]
    exact ⟨Disk.ext block mem, delivered.readOnly.md ▸ keyed⟩
  · have notRead : ¬ opCode task = MIX_READ := by
      rw [write]
      decide
    have written := syncTask_write running.all keyed inRange stripe write (safe write) ran
    have block : placed d.region m'.blockContent = setBlocks (placed d.region d.m.blockContent)
        (task.offset + SCHEDULER_THRESHOLD) task.len (d.m.blocksAt task.buf) := by
      rw [written.content, setBlocks_high]
    rw [if_neg notRead, if_pos write]
    exact ⟨Disk.ext block written.mem, written.keyed⟩

/-! ## Runs -/

/-- A read or a write, where the scheduler posts it. -/
structure Post.Transfers (p : Post) : Prop where
  suits : p.Suits
  op : opCode p.task = MIX_READ ∨ opCode p.task = MIX_WRITE
  below : ∀ task, p = .nvm task → task.offset + task.len < SCHEDULER_THRESHOLD

theorem Post.Transfers.transfer (transfers : p.Transfers) (running : Running P d.m)
    (keyed : Keyed d.m.md) (safe : LosesNothing d.m.md p) (served : d.serve p = some e) :
    e.disk = d.disk.post p ∧ Keyed e.m.md := by
  cases p with
  | nvm task =>
      obtain ⟨disk, md⟩ := nvmTask_disk (transfers.below task rfl) served
      exact ⟨disk, md ▸ keyed⟩
  | buffer idx task => exact ssdTask_disk running keyed transfers.suits transfers.op safe served

/-- Posts served one after another do to the disk what they say. -/
theorem run_disk {posts : List Post} (transfers : ∀ p ∈ posts, p.Transfers)
    (running : Running P d.m) (keyed : Keyed d.m.md)
    (run : Run Storage.serve (fun d p => LosesNothing d.m.md p) d posts e) :
    e.disk = posts.foldl Disk.post d.disk := by
  induction run with
  | nil => rfl
  | @cons d d' e p posts safe served _ ih =>
      obtain ⟨here, later⟩ := List.forall_mem_cons.1 transfers
      obtain ⟨disk, keyed'⟩ := here.transfer running keyed safe served
      rw [List.foldl_cons, ← disk]
      exact ih later (serve_running running here.suits served) keyed'

/-- The posts for a read or a write. -/
theorem doSchedule_transfers (regional : task.Regional)
    (op : opCode task = MIX_READ ∨ opCode task = MIX_WRITE) :
    ∀ p ∈ doSchedule (handleTask task), p.Transfers := by
  intro p member
  have of := doSchedule_of regional p member
  rcases regional with below | ⟨above, -⟩
  · rw [handleTask_nvm below, doSchedule_nvm rfl] at member
    obtain rfl := List.mem_singleton.1 member
    refine ⟨of.suits, op, fun task' same => ?_⟩
    obtain rfl := Post.nvm.inj same
    exact below
  · have type : (handleTask task).type = SSD_TASK := by rw [handleTask_ssd above]
    rw [doSchedule_ssd type] at member
    obtain ⟨x, there, rfl⟩ := List.mem_map.1 member
    obtain ⟨b, len, rfl, -⟩ := (mixPostTaskToBuffer_splits _).member there
    refine ⟨of.suits, ?_, nofun⟩
    rw [← handleTask_op] at op
    exact op

theorem Request.Plain.op {request : Request} (plain : request.Plain) (i : Nat) :
    opCode (request.task i) = MIX_READ ∨ opCode (request.task i) = MIX_WRITE := by
  cases request with
  | read => exact .inl (opCode_flags plain.1)
  | write => exact .inr (opCode_flags plain.1)

end

/-- A batch that is done leaves the disk as its requests do in the order in which the scheduler
took them. -/
theorem disk_in_order {P submitQueueNum capacity : Nat} {m : Machine} (running : Running P m)
    (keyed : Keyed m.md) {region : Nat → Block} {requests : Nat → List Request}
    (plain : ∀ i, ∀ request ∈ requests i, request.Plain)
    (separate : (batchTasks submitQueueNum requests).Pairwise IoTask.Separate)
    {turns : List Pipeline.Turn} {s : Pipeline}
    (run : Run (Pipeline.step submitQueueNum capacity) (Pipeline.Begins LosesNothing)
      (.start m region requests) turns s)
    (rest : s.AtRest submitQueueNum) :
    s.storage.disk =
      (Pipeline.scheduled submitQueueNum capacity (.start m region requests) turns).foldl
        Disk.handle (Pipeline.start m region requests).storage.disk := by
  have served := served_in_order losesNothing_local running
    (fun i request member => (plain i request member).regional) separate run rest
  have each : ∀ task ∈ Pipeline.scheduled submitQueueNum capacity (.start m region requests) turns,
      task.Regional ∧ (opCode task = MIX_READ ∨ opCode task = MIX_WRITE) := by
    intro task member
    obtain ⟨i, -, request, posted, rfl⟩ := (scheduled_serializes run rest).of_mem member
    have here := plain i request posted
    exact ⟨here.regional.task i, here.op i⟩
  have transfers : ∀ p ∈ Pipeline.jobs
      (Pipeline.scheduled submitQueueNum capacity (.start m region requests) turns),
      p.Transfers := by
    intro p member
    obtain ⟨task, there, inside⟩ := List.mem_flatMap.1 member
    exact doSchedule_transfers (each task there).1 (each task there).2 p inside
  rw [run_disk transfers ⟨running.all, running.perBlockNum⟩ keyed served, Pipeline.jobs,
    List.foldl_flatMap]
  exact List.foldl_ext _ _ _ fun disk task member => doSchedule_disk (each task member).1 disk

/-- **MIXDK is a disk.**  Whatever the threads do, a batch that is done leaves the blocks a reader
finds and the callers' memory as its requests leave a disk and the memory, one after another, if
no block gets lost on the way. -/
theorem pipeline_disk {P submitQueueNum capacity : Nat} {m : Machine} (running : Running P m)
    (keyed : Keyed m.md) (region : Nat → Block) {requests : Nat → List Request}
    (plain : ∀ i, ∀ request ∈ requests i, request.Plain)
    (memory : (batchTasks submitQueueNum requests).Pairwise IoTask.MemSeparate)
    (blocks : (batchTasks submitQueueNum requests).Pairwise IoTask.NvmSeparate)
    {turns : List Pipeline.Turn} {s : Pipeline}
    (run : Run (Pipeline.step submitQueueNum capacity) (Pipeline.Begins LosesNothing)
      (.start m region requests) turns s)
    (rest : s.AtRest submitQueueNum) :
    ∃ order, Serializes submitQueueNum capacity requests (.start m region requests) turns order ∧
      s.storage.disk =
        order.foldl Disk.handle (Pipeline.start m region requests).storage.disk :=
  ⟨_, scheduled_serializes run rest, disk_in_order running keyed plain (memory.and blocks) run rest⟩

/-! ## A run -/

instance (md : Metadata) (p : Post) : Decidable (LosesNothing md p) := by
  cases p with
  | nvm => exact instDecidableTrue
  | buffer => exact inferInstanceAs (Decidable (_ → _))

/-- No segment is full and no block gets lost, as a test. -/
def Pipeline.keeps (s : Pipeline) (turn : Pipeline.Turn) : Bool :=
  s.unfull && (s.begun turn).all fun p => decide (LosesNothing s.m.md p)

theorem Pipeline.keeps_sound (s : Pipeline) (turn : Pipeline.Turn) (keeps : s.keeps turn = true) :
    s.Begins LosesNothing turn := by
  obtain ⟨unfull, safe⟩ := Bool.and_eq_true_iff.1 keeps
  refine ⟨Pipeline.unfull_sound unfull, fun p taken => ?_⟩
  rw [taken] at safe
  exact of_decide_eq_true safe

theorem overlapping_disk : ∃ s,
    Run (Pipeline.step 2 4) (Pipeline.Begins LosesNothing)
      (.start smallBuffer (fun _ _ => 0) overlapping) overlappingTurns s ∧ s.AtRest 2 ∧
    ∃ order, Serializes 2 4 overlapping (.start smallBuffer (fun _ _ => 0) overlapping)
        overlappingTurns order ∧
      s.storage.disk = order.foldl Disk.handle
        (Pipeline.start smallBuffer (fun _ _ => 0) overlapping).storage.disk := by
  have ends : (exec (fun s turn => if s.keeps turn then Pipeline.step 2 4 s turn else none)
      (.start smallBuffer (fun _ _ => 0) overlapping) overlappingTurns).any
        (fun s => decide (s.AtRest 2)) = true := by
    decide +kernel
  obtain ⟨s, ran, idle⟩ := (Option.any_eq_true _ _).1 ends
  have rest := of_decide_eq_true idle
  have run := Run.of_checked Pipeline.keeps_sound ran
  exact ⟨s, run, rest, pipeline_disk (Running.init (show 32 < 2 ^ 32 by decide) rfl)
    (Faithful.start (m := smallBuffer) rfl).keyed _ overlapping_plain (by decide) (by decide) run
      rest⟩

end Mixdk
