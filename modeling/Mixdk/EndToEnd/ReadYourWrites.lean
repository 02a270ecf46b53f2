/-
# EndToEnd.ReadYourWrites -- sessions of requests

A session hands the device one request after another, each when nothing is left of the
one before.  It keeps, beside the pool of workers, what each block should contain: the
block of the latest write, at the start the SSD's (`Session.content`).

A read should bring these contents (`ReadsLatest`).  It does in every session whose
steps stay clear of the places where blocks get lost (`StepSafe`): a small write whose
slot is not indexed, a large write over a gap, a migration of another segment than the
first, or over an ssd_worker's or another thread's staged block (`reads_latest`).  In
other sessions it may not (`gap_read_stale`).

The invariant (`Faithful`) speaks about the machine in which everything begun has
settled: there each block has its content, or its write is still waiting, and of a read
each block is in the caller's memory, or its part of the read is still waiting.
-/
import Mixdk.EndToEnd.Content
import Mixdk.Index.Restart
import Mixdk.EndToEnd.Migrating

namespace Mixdk

open Transition Lanes

set_option autoImplicit false

/-! ## Sessions -/

structure Session where
  pool : Pool
  /-- What each block of the SSD should contain. -/
  content : Nat → Block
  /-- The request in hand, as `handle_task` passes it on. -/
  current : Option IoTask

inductive SessionStep
  /-- The next request, and the callers' memory at its time. -/
  | submit (request : IoTask) (mem : Mem)
  | move (move : Move)

/-- The caller's blocks at address `buf`. -/
def Mem.blocks (mem : Mem) (buf : Nat) : Nat → Block := fun i => mem.load (buf + i * BLOCK_SIZE)

/-- A read or a write in the SSD's region. -/
structure Accepted (request : IoTask) : Prop where
  region : SCHEDULER_THRESHOLD ≤ request.offset
  inSsd : InSsd (handleTask request)
  op : opCode request = MIX_READ ∨ opCode request = MIX_WRITE

instance (request : IoTask) : Decidable (Accepted request) :=
  decidable_of_iff (SCHEDULER_THRESHOLD ≤ request.offset ∧ InSsd (handleTask request) ∧
      (opCode request = MIX_READ ∨ opCode request = MIX_WRITE))
    ⟨fun h => ⟨h.1, h.2.1, h.2.2⟩, fun h => ⟨h.region, h.inSsd, h.op⟩⟩

namespace Session

/-- A session begins on an idle device. -/
def start (m : Machine) : Session :=
  { pool := { sys := .start m [], migration := none }, content := m.ssd, current := none }

def submit (s : Session) (request : IoTask) (mem : Mem) : Option Session :=
  if s.pool.sys.Idle ∧ Accepted request then
    let task := handleTask request
    some
      { pool := { s.pool with
          sys := { s.pool.sys with
            m := { s.pool.sys.m with mem := mem }
            todo := mixPostTaskToBuffer task } }
        content :=
          if opCode task = MIX_WRITE then
            setBlocks s.content task.offset task.len (mem.blocks task.buf)
          else s.content
        current := some task }
  else none

def step (capacity : Nat) (s : Session) : SessionStep → Option Session
  | .submit request mem => s.submit request mem
  | .move move => (s.pool.step capacity move).map fun pool => { s with pool := pool }

/-- Once it is done, a read has brought the content of each of its blocks. -/
def ReadsLatest (s : Session) : Prop :=
  s.pool.sys.Idle → ∀ r, s.current = some r → opCode r = MIX_READ → ∀ i < r.len,
    s.pool.sys.m.blocksAt r.buf i = s.content (r.offset + i)

end Session

/-- The worker does not begin a write that loses a block. -/
def BeginSafe (s : System) : Thread → Prop
  | .scheduler | .ssd _ => True
  | .nvm idx => ∀ task rest, (s.lane idx).actions = [] → (s.lane idx).bufferQueue = task :: rest →
      opCode task = MIX_WRITE → WriteSafe s.m.md task idx

/-- The step stays clear of the places where blocks get lost. -/
def StepSafe (s : Session) : SessionStep → Prop
  | .submit .. => True
  | .move move => MigrationSafe s.pool move ∧ ∀ thread, move = .worker thread →
      BeginSafe s.pool.sys thread

/-! ## The invariant -/

/-- The contents are in `m`, as far as they are not in a task that waits. -/
structure Faithful (m : Machine) (waiting : SegIdx → List IoTask) (content : Nat → Block)
    (current : Option IoTask) : Prop where
  keyed : Keyed m.md
  op : ∀ r, current = some r → opCode r = MIX_READ ∨ opCode r = MIX_WRITE
  pieces : ∀ idx, ∀ t ∈ waiting idx, ∃ r b len, current = some r ∧ t = postTask r b len ∧
    r.offset ≤ b ∧ b + len ≤ r.offset + r.len
  written : ∀ b, (∀ idx, ∀ t ∈ waiting idx, opCode t = MIX_WRITE →
    ¬ (t.offset ≤ b ∧ b < t.offset + t.len)) → m.blockContent b = content b
  source : ∀ idx, ∀ t ∈ waiting idx, opCode t = MIX_WRITE → ∀ i < t.len,
    m.blocksAt t.buf i = content (t.offset + i)
  delivered : ∀ r, current = some r → opCode r = MIX_READ → ∀ i < r.len,
    m.blocksAt r.buf i = content (r.offset + i) ∨
      ∃ idx, ∃ t ∈ waiting idx, t.offset ≤ r.offset + i ∧ r.offset + i < t.offset + t.len

section

variable {P capacity : Nat} {m m' : Machine} {waiting : SegIdx → List IoTask}
  {content : Nat → Block} {current : Option IoTask} {idx : SegIdx} {task : IoTask}
  {later : List IoTask}

theorem mem_of_update {j : SegIdx} {t : IoTask} (next : waiting idx = task :: later)
    (member : t ∈ Function.update waiting idx later j) : t ∈ waiting j := by
  by_cases same : j = idx
  · subst same
    rw [Function.update_self] at member
    rw [next]
    exact List.mem_cons_of_mem _ member
  · rwa [Function.update_of_ne same] at member

/-- A task that waits has been begun, or still waits. -/
theorem begun_or_waits {j : SegIdx} {t : IoTask} (next : waiting idx = task :: later)
    (member : t ∈ waiting j) : t = task ∨ t ∈ Function.update waiting idx later j := by
  by_cases same : j = idx
  · subst same
    rw [next] at member
    rw [Function.update_self]
    exact List.mem_cons.1 member
  · rw [Function.update_of_ne same]
    exact .inr member

theorem Faithful.write (faithful : Faithful m waiting content current)
    (next : waiting idx = task :: later) (write : opCode task = MIX_WRITE)
    (done : Written task m m') :
    Faithful m' (Function.update waiting idx later) content current := by
  have mine : task ∈ waiting idx := by
    rw [next]
    exact List.mem_cons_self
  have blocks : ∀ p, m'.blocksAt p = m.blocksAt p := by
    intro p
    funext j
    exact congrArg (fun mem : Mem => mem.load (p + j * BLOCK_SIZE)) done.mem
  refine ⟨done.keyed, faithful.op, ?_, ?_, ?_, ?_⟩
  · exact fun j t member => faithful.pieces j t (mem_of_update next member)
  · intro b notWaiting
    rw [done.content]
    by_cases inside : task.offset ≤ b ∧ b < task.offset + task.len
    · rw [setBlocks_inside inside.1 inside.2, faithful.source idx task mine write _ (by omega),
        Nat.add_sub_cancel' inside.1]
    · rw [setBlocks_outside inside]
      apply faithful.written
      intro j t member op
      rcases begun_or_waits next member with rfl | still
      · exact inside
      · exact notWaiting j t still op
  · intro j t member op i below
    rw [blocks]
    exact faithful.source j t (mem_of_update next member) op i below
  · intro r now read
    obtain ⟨r', b, len, now', rfl, -⟩ := faithful.pieces idx task mine
    cases now.symm.trans now'
    have both : opCode r = MIX_WRITE := write
    rw [both] at read
    exact absurd read (by decide)

theorem Faithful.read (faithful : Faithful m waiting content current)
    (next : waiting idx = task :: later) (read : opCode task = MIX_READ)
    (done : Delivered task 0 task.len m m') :
    Faithful m' (Function.update waiting idx later) content current := by
  have mine : task ∈ waiting idx := by
    rw [next]
    exact List.mem_cons_self
  obtain ⟨r, b, len, now, rfl, low, high⟩ := faithful.pieces idx task mine
  -- all tasks that wait are parts of the same read
  have notWrite : ∀ j, ∀ t ∈ waiting j, opCode t ≠ MIX_WRITE := by
    intro j t member write
    obtain ⟨r', b', len', now', rfl, -⟩ := faithful.pieces j t member
    cases now.symm.trans now'
    have both : opCode r = MIX_READ := read
    have op : opCode r = MIX_WRITE := write
    rw [both] at op
    exact absurd op (by decide)
  have contents : ∀ b, m.blockContent b = content b := fun b =>
    faithful.written b fun j t member write => absurd write (notWrite j t member)
  refine ⟨?_, faithful.op, ?_, ?_, ?_, ?_⟩
  · rw [done.readOnly.md]
    exact faithful.keyed
  · exact fun j t member => faithful.pieces j t (mem_of_update next member)
  · intro b _
    rw [done.readOnly.blockContent]
    exact contents b
  · exact fun j t member write => absurd write (notWrite j t (mem_of_update next member))
  · intro r' now' isRead i below
    cases now.symm.trans now'
    by_cases inside : b ≤ r.offset + i ∧ r.offset + i < b + len
    · -- this task has brought the block
      left
      have brought := done.blocks (r.offset + i - b) (Nat.zero_le _) (by
        change r.offset + i - b < len
        omega)
      have block : b + (r.offset + i - b) = r.offset + i := by omega
      have shift : b - r.offset + (r.offset + i - b) = i := by omega
      change m'.mem.load (r.buf + (b - r.offset) * BLOCK_SIZE +
        (r.offset + i - b) * BLOCK_SIZE) = m.blockContent (b + (r.offset + i - b)) at brought
      rw [Nat.add_assoc, ← Nat.add_mul, shift, block, contents] at brought
      exact brought
    · rcases faithful.delivered r now isRead i below with before | ⟨j, t, member, covers⟩
      · left
        rw [← before]
        apply done.others.blocksAt
        change _ ≤ r.buf + (b - r.offset) * BLOCK_SIZE + 0 * BLOCK_SIZE ∨
          r.buf + (b - r.offset) * BLOCK_SIZE + 0 * BLOCK_SIZE + (len - 0) * BLOCK_SIZE ≤ _
        rw [Nat.zero_mul, Nat.add_zero, Nat.sub_zero, Nat.add_assoc r.buf (i * BLOCK_SIZE),
          ← Nat.succ_mul, Nat.add_assoc r.buf, ← Nat.add_mul]
        by_cases early : r.offset + i < b
        · exact .inl (block_le (by omega))
        · exact .inr (block_le (by omega))
      · right
        rcases begun_or_waits next member with rfl | still
        · exact absurd covers inside
        · exact ⟨j, t, still, covers⟩

/-! ## Requests -/

theorem setMem_content (m : Machine) (mem : Mem) :
    ({ m with mem := mem } : Machine).blockContent = m.blockContent := rfl

/-- A request is in hand, none of its tasks is begun. -/
theorem Faithful.submit (faithful : Faithful m (fun _ => []) content current) (mem : Mem)
    {r : IoTask} (op : opCode r = MIX_READ ∨ opCode r = MIX_WRITE) :
    Faithful { m with mem := mem }
      (fun idx => ((mixPostTaskToBuffer r).filter fun x => x.1 = idx).map Prod.snd)
      (if opCode r = MIX_WRITE then setBlocks content r.offset r.len (mem.blocks r.buf)
        else content) (some r) := by
  have splits := mixPostTaskToBuffer_splits r
  have contents : ∀ b, m.blockContent b = content b := fun b => faithful.written b nofun
  have piece : ∀ {idx t}, t ∈ ((mixPostTaskToBuffer r).filter fun x => x.1 = idx).map Prod.snd →
      ∃ b len, t = postTask r b len ∧ r.offset ≤ b ∧ b + len ≤ r.offset + r.len := by
    intro idx t member
    obtain ⟨x, kept, rfl⟩ := List.mem_map.1 member
    obtain ⟨b, len, rfl, -, low, high, -⟩ := splits.member (List.mem_filter.1 kept).1
    exact ⟨b, len, rfl, low, high⟩
  have covered : ∀ b, r.offset ≤ b → b < r.offset + r.len → ∃ idx,
      ∃ t ∈ ((mixPostTaskToBuffer r).filter fun x => x.1 = idx).map Prod.snd,
        t.offset ≤ b ∧ b < t.offset + t.len := by
    intro b low high
    obtain ⟨x, inside, covers⟩ := splits.covers low high
    refine ⟨x.1, x.2, List.mem_map.2 ⟨x, List.mem_filter.2 ⟨inside, ?_⟩, rfl⟩, covers⟩
    exact decide_eq_true rfl
  refine ⟨faithful.keyed, ?_, ?_, ?_, ?_, ?_⟩
  · intro r' now
    cases now
    exact op
  · intro idx t member
    obtain ⟨b, len, eq, low, high⟩ := piece member
    exact ⟨r, b, len, rfl, eq, low, high⟩
  · intro b notWaiting
    rw [setMem_content]
    split
    · rename_i write
      have outside : ¬ (r.offset ≤ b ∧ b < r.offset + r.len) := by
        rintro ⟨low, high⟩
        obtain ⟨idx, t, member, covers⟩ := covered b low high
        obtain ⟨b', len, rfl, -⟩ := piece member
        exact notWaiting idx _ member write covers
      rw [setBlocks_outside outside]
      exact contents b
    · exact contents b
  · intro idx t member write i below
    obtain ⟨b, len, rfl, low, high⟩ := piece member
    have isWrite : opCode r = MIX_WRITE := write
    have within : b + i < r.offset + r.len := by
      change i < len at below
      omega
    have block : b + i - r.offset = b - r.offset + i := by omega
    change mem.load (r.buf + (b - r.offset) * BLOCK_SIZE + i * BLOCK_SIZE) = _
    rw [if_pos isWrite]
    change _ = setBlocks content r.offset r.len (mem.blocks r.buf) (b + i)
    rw [setBlocks_inside (by omega) within, block, Mem.blocks, Nat.add_assoc, ← Nat.add_mul]
  · intro r' now _ i below
    cases now
    exact .inr (covered (r.offset + i) (Nat.le_add_right _ _) (Nat.add_lt_add_left below _))

/-! ## Steps -/

theorem WriteSafe.congr {md md' : Metadata} (size : md'.perBlockNum = md.perBlockNum)
    (seg : md'.segments idx = md.segments idx) : WriteSafe md' task idx ↔ WriteSafe md task idx := by
  simp only [WriteSafe, SlotSafe, ClearsWhole, mixBufferBlockTest_congr size seg, size, seg]

/-- What an nvm_worker that is not migrating finds, it finds in the system in which the
migration has not begun. -/
theorem Ahead.beginSafe {s : Pool} {v : System} (all : AllIndexed v.m.md) (ahead : Ahead s v)
    {thread : Thread} (free : ¬ s.Blocked thread) (safe : BeginSafe s.sys thread) :
    BeginSafe v thread := by
  cases ahead with
  | idle => exact safe
  | @migrating _ idx pc m underway =>
      cases thread with
      | scheduler | ssd _ => trivial
      | nvm j =>
          have other : j ≠ idx := by
            rintro rfl
            exact free ⟨_, rfl, rfl⟩
          have same := underway.same all
          intro task rest actions queue write
          exact (WriteSafe.congr same.perBlockNum (same.segments j other)).1
            (safe task rest actions queue write)

/-- What holds in every session. -/
def Holds (P : Nat) (s : Session) : Prop :=
  ∃ v, Ahead s.pool v ∧ v.Ready P ∧ Faithful v.settled v.waiting s.content s.current

/-- A step of a worker. -/
theorem Faithful.worker {v v' : System} (ready : v.Ready P)
    (faithful : Faithful v.settled v.waiting content current) {thread : Thread}
    (safe : BeginSafe v thread) (stepped : v.step capacity thread = some v') :
    v'.Ready P ∧ Faithful v'.settled v'.waiting content current := by
  obtain ⟨ready', progress⟩ := ready.step stepped
  refine ⟨ready', ?_⟩
  cases progress with
  | work settled waiting =>
      rw [settled, waiting]
      exact faithful
  | @begins idx task queue later free head next waiting sync =>
      have member : task ∈ v.waiting idx := by
        rw [next]
        exact List.mem_cons_self
      obtain ⟨inRange, stripe⟩ := ready.kept.tasks idx task member
      have all : AllIndexed v.settled.md := by
        rw [System.settled_md]
        exact ready.running.all
      obtain ⟨r, b, len, now, rfl, -⟩ := faithful.pieces idx task member
      rw [waiting]
      rcases faithful.op r now with read | write
      · exact faithful.read next read (syncTask_read all inRange stripe read sync)
      · have safe' : WriteSafe v.settled.md (postTask r b len) idx := by
          rw [System.settled_md]
          exact safe _ queue free head write
        exact faithful.write next write
          (syncTask_write all faithful.keyed inRange stripe write safe' sync)

/-- A migration and the write that needed it. -/
theorem Faithful.migrates {v v' : System} (some_block : 0 < P) (ready : v.Ready P)
    (faithful : Faithful v.settled v.waiting content current) (first : idx.val = 0)
    (waits : v.Waits idx) {sched : List (Fin MIGRATE_THREAD_NUM)}
    (stages : StagesApart v.m idx sched) (stepped : v.migrateStep idx sched = some v') :
    v'.Ready P ∧ Faithful v'.settled v'.waiting content current := by
  have keyed : Keyed v.m.md := by
    rw [← System.settled_md]
    exact faithful.keyed
  obtain ⟨ready', stages', task, later, next, waiting, sync⟩ :=
    ready.migrate some_block first waits (keyed idx) stages stepped
  have member : task ∈ v.waiting idx := by
    rw [next]
    exact List.mem_cons_self
  obtain ⟨inRange, stripe⟩ := ready.kept.tasks idx task member
  have all : AllIndexed v.settled.md := by
    rw [System.settled_md]
    exact ready.running.all
  have some_ : 0 < v.settled.md.perBlockNum := by
    rw [System.settled_md, ready.running.perBlockNum]
    exact some_block
  obtain ⟨write, done⟩ :=
    syncMigrate_write first all some_ faithful.keyed inRange stripe stages' sync
  rw [waiting]
  exact ⟨ready', faithful.write next write done⟩

/-- While a migration is under way, its nvm_worker has a task. -/
theorem Ahead.of_idle {s : Pool} {v : System} (ahead : Ahead s v) (idle : s.sys.Idle) :
    s = { sys := v, migration := none } := by
  cases ahead with
  | idle => rfl
  | @migrating _ idx pc m underway =>
      obtain ⟨-, task, rest, queue, -⟩ := full_iff.1 underway.full
      have empty : (v.lane idx).bufferQueue = [] := congrArg Lane.bufferQueue (idle.2 idx)
      rw [queue] at empty
      cases empty

theorem handleTask_op (request : IoTask) : opCode (handleTask request) = opCode request := by
  unfold handleTask opCode
  split
  · rfl
  · split <;> rfl

/-- **Every safe step of a session keeps the contents.** -/
theorem Holds.step {s s' : Session} (some_block : 0 < P) (holds : Holds P s) {step : SessionStep}
    (safe : StepSafe s step) (stepped : s.step capacity step = some s') : Holds P s' := by
  obtain ⟨v, ahead, ready, faithful⟩ := holds
  cases step with
  | submit request mem =>
      simp only [Session.step, Session.submit] at stepped
      split at stepped
      · rename_i accepted
        obtain rfl := Option.some.inj stepped
        obtain ⟨idle, accepted⟩ := accepted
        have alone := ahead.of_idle idle
        rw [alone] at idle ⊢
        obtain ⟨settled, empty⟩ := settled_idle idle
        have nothing : v.waiting = fun _ => [] := funext empty
        have lanes : v.lane = fun _ => .idle := funext idle.2
        rw [settled, nothing] at faithful
        simp only [lanes]
        refine ⟨System.start { v.m with mem := mem } (mixPostTaskToBuffer (handleTask request)),
          .idle _, ?_, ?_⟩
        · have running : Running P { v.m with mem := mem } :=
            ⟨ready.running.all, ready.running.perBlockNum⟩
          apply start_ready running
          · intro x member
            have inSsd : ∀ r ∈ [handleTask request], InSsd r := by
              intro r only
              rw [List.mem_singleton.1 only]
              exact accepted.inSsd
            exact subtasks_fit inSsd x (List.mem_flatMap.2 ⟨_, List.mem_singleton_self _, member⟩)
          · exact request_apart _
        · have start : (System.start { v.m with mem := mem }
              (mixPostTaskToBuffer (handleTask request))).settled = { v.m with mem := mem } :=
            settle_nil (fun _ _ => rfl) _
          rw [start]
          exact faithful.submit mem (handleTask_op request ▸ accepted.op)
      · cases stepped
  | move move =>
      obtain ⟨pool, moved, rfl⟩ := Option.map_eq_some_iff.1 stepped
      have keyed : Keyed v.m.md := by
        rw [← System.settled_md]
        exact faithful.keyed
      obtain ⟨v', ahead', follows⟩ := ahead.step ready keyed safe.1 moved
      cases follows with
      | stays => exact ⟨v, ahead', ready, faithful⟩
      | @worker _ thread early =>
          have free : ¬ s.pool.Blocked thread := by
            intro blocked
            rw [Pool.step, if_pos blocked] at moved
            cases moved
          have begins := ahead.beginSafe ready.running.all free (safe.2 thread rfl)
          exact ⟨v', ahead', faithful.worker ready begins early⟩
      | migrates first waits stages early =>
          exact ⟨v', ahead', faithful.migrates some_block ready first waits stages early⟩

/-! ## Sessions on a fresh device -/

theorem Faithful.start {blockNum : Nat} (fresh : m.md = mixMetadataInit blockNum) :
    Faithful m (fun _ => []) m.ssd none where
  keyed := by
    intro idx kv entry
    rw [fresh, mixMetadataInit_entries] at entry
    cases entry
  op := nofun
  pieces := nofun
  written := by
    intro b _
    apply Machine.blockContent_of_none
    rw [fresh]
    have ok := (Hash.Sound.init (Nat.zero_lt_succ 99))
    apply (ok.find?_eq_none_iff (by rw [entries_init]; exact List.nodup_nil)).2
    intro v entry
    rw [entries_init] at entry
    cases entry
  source := nofun
  delivered := nofun

/-- **In every session whose steps lose no block, every read brings the latest contents.** -/
theorem reads_latest {blockNum : Nat} (word : blockNum < 2 ^ 32)
    (some_block : 0 < blockNum / SEGMENT_NUM) (fresh : m.md = mixMetadataInit blockNum)
    {steps : List SessionStep} {s : Session}
    (run : Run (Session.step capacity) StepSafe (Session.start m) steps s) : s.ReadsLatest := by
  have begun : Holds (blockNum / SEGMENT_NUM) (Session.start m) := by
    refine ⟨System.start m [], .idle _, start_ready (.init word fresh) nofun .nil, ?_⟩
    have settled : (System.start m []).settled = m := settle_nil (fun _ _ => rfl) m
    rw [settled]
    exact .start fresh
  obtain ⟨v, ahead, ready, faithful⟩ :=
    run.invariant (fun _ _ _ holds safe stepped => holds.step some_block safe stepped) begun
  intro idle r now read i below
  have alone := ahead.of_idle idle
  rw [alone] at idle ⊢
  obtain ⟨settled, empty⟩ := settled_idle idle
  rcases faithful.delivered r now read i below with here | ⟨idx, t, member, -⟩
  · rw [settled] at here
    exact here
  · rw [empty idx] at member
    cases member

end

/-! ## Two sessions -/

/-- A device at its start. -/
def freshDevice : Machine :=
  .blank (mixMetadataInit BUFFER_BLOCK_NUM) { data := fun _ _ => 0, metas := fun _ => ⟨0, 0, 0, 0⟩ }

/-- A request for `len` blocks from block `block` of the SSD on. -/
def request (opcode block len : Nat) : IoTask :=
  { buf := 0, len := len, offset := SCHEDULER_THRESHOLD + block, ret := 0, opcode := opcode,
    type := 0, queueIdx := 0 }

/-- The request is handled in segment 0: the scheduler, the nvm_worker and the ssd_worker take
turns. -/
def handled (opcode block len byte nvm ssd : Nat) : List SessionStep :=
  .submit (request opcode block len) (fun _ => UInt8.ofNat byte) ::
    (.move (.worker .scheduler) :: List.replicate nvm (.move (.worker (.nvm (segmentOf 0)))) ++
      List.replicate ssd (.move (.worker (.ssd (segmentOf 0)))))

/-- Write block 1, write blocks 0 and 1, read block 1. -/
def gapSession : List SessionStep :=
  handled MIX_WRITE 1 1 1 3 0 ++ handled MIX_WRITE 0 2 2 3 3 ++ handled MIX_READ 1 1 0 3 0

def firstByte : Fin BLOCK_SIZE := ⟨0, by decide⟩

/-- Block 0 is not buffered, so `mix_clear_block` stops there, and the read finds the first
write in the buffer. -/
theorem gap_read_stale : ∃ s, exec (Session.step 4) (Session.start freshDevice) gapSession = some s ∧
    ¬ s.ReadsLatest := by
  have run : (exec (Session.step 4) (Session.start freshDevice) gapSession).any (fun s =>
      decide s.pool.sys.Idle && decide (s.current = some (handleTask (request MIX_READ 1 1))) &&
        decide (s.pool.sys.m.blocksAt 0 0 firstByte ≠ s.content 1 firstByte)) = true := by
    decide +kernel
  obtain ⟨s, ran, there⟩ := (Option.any_eq_true _ _).1 run
  simp only [Bool.and_eq_true, decide_eq_true_iff] at there
  obtain ⟨⟨idle, now⟩, stale⟩ := there
  refine ⟨s, ran, ?_⟩
  intro reads
  have one : (handleTask (request MIX_READ 1 1)).offset = 1 := by decide
  have latest := reads idle _ now (by decide) 0 (by decide)
  rw [one] at latest
  exact stale (congrFun latest firstByte)

/-- Steps seen to be safe, without a migration. -/
def checkedSafe (s : Session) : SessionStep → Bool
  | .move (.worker (.nvm idx)) =>
      (s.pool.sys.lane idx).bufferQueue.all fun task =>
        decide (opCode task = MIX_WRITE → WriteSafe s.pool.sys.m.md task idx)
  | .submit .. | .move (.worker _) => true
  | .move _ => false

theorem checkedSafe_sound (s : Session) (step : SessionStep) (checked : checkedSafe s step = true) :
    StepSafe s step := by
  cases step with
  | submit request mem => trivial
  | move move =>
      cases move with
      | beginMigration | migrate | endMigration => cases checked
      | worker thread =>
          refine ⟨trivial, ?_⟩
          rintro _ ⟨⟩
          cases thread with
          | scheduler | ssd _ => trivial
          | nvm idx =>
              intro task rest _ queue write
              have safe := List.all_eq_true.1 checked task (queue ▸ List.mem_cons_self)
              exact of_decide_eq_true safe write

/-- With block 0 written first, nothing is in the way of the large write. -/
def wholeSession : List SessionStep :=
  handled MIX_WRITE 0 1 1 3 0 ++ handled MIX_WRITE 0 2 2 4 3 ++ handled MIX_READ 0 2 0 3 3

theorem whole_reads_latest : ∃ s,
    Run (Session.step 4) StepSafe (Session.start freshDevice) wholeSession s ∧
      s.pool.sys.Idle ∧ s.current = some (handleTask (request MIX_READ 0 2)) ∧ s.ReadsLatest := by
  have run : (exec (fun s a => if checkedSafe s a then Session.step 4 s a else none)
      (Session.start freshDevice) wholeSession).any (fun s =>
        decide s.pool.sys.Idle &&
          decide (s.current = some (handleTask (request MIX_READ 0 2)))) = true := by
    decide +kernel
  obtain ⟨s, ran, there⟩ := (Option.any_eq_true _ _).1 run
  simp only [Bool.and_eq_true, decide_eq_true_iff] at there
  have safe : Run (Session.step 4) StepSafe (Session.start freshDevice) wholeSession s :=
    .of_checked checkedSafe_sound ran
  exact ⟨s, safe, there.1, there.2,
    reads_latest (show BUFFER_BLOCK_NUM < 2 ^ 32 by decide) (by decide) rfl safe⟩

end Mixdk
