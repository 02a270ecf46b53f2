/-
# Durability.CrashSafety -- no completed write is lost

What the nvm_worker is doing (`Doing`) says what is on the shelf at the time: between two
writes the entries of the index; during a small write what was there before it; during a
large one the blocks still to be cleared as well; during a migration what `midway` leaves
there.  Each step of a thread keeps it (`Recoverable.step`), and each point of it is one at
which a safe crash loses nothing (`Recoverable.durable`, `crash_durable`).

Without the conditions writes do get lost: a large write invalidates the records of its
blocks while it is still queued (`queuedWrite_lost`).
-/
import Mixdk.Durability.Shelf

namespace Mixdk

open scoped List
open Transition

set_option autoImplicit false

/-- Block `k` is entered in slot `v` of segment 0. -/
def InSlot (md : Metadata) (k v : Nat) : Prop :=
  (k, v) ∈ (md.segments firstSegment).hash.entries

/-- The index is in order and as large as at the start. -/
structure WellIndexed (blockNum : Nat) (md : Metadata) : Prop where
  all : AllIndexed md
  perBlockNum : md.perBlockNum = (mixMetadataInit blockNum).perBlockNum
  bits : (md.segments firstSegment).bitmap.bits = slotNum blockNum

/-- The actions that clear the records of `removed`. -/
def clearActions (removed : List MixKv) : List Action := removed.map fun kv => .bufferClear kv.2

/-- What the nvm_worker is doing outside a migration, with `md` and `n` in its hands. -/
inductive Doing (start : Machine) (writes : List IoTask) (blockNum : Nat) (d : Device)
    (worker : NvmWorker) (md : Metadata) (n : NvmBuffer) : Prop
  | idle {onSsd buf : Nat → Nat} (actions : worker.actions = [])
      (kept : Persisted start writes blockNum worker.begun d n (InSlot md) onSsd buf Nothing)
  /-- A small write, some of its stores made. -/
  | storing {N v : Nat} {task : IoTask} {before : NvmBuffer} {at_ : Nat → Nat → Prop}
      {onSsd buf : Nat → Nat} (begun : worker.begun = N + 1) (nth : writes[N]? = some task)
      (single : task.len = 1)
      (actions : worker.actions =
        [.writeToBuffer task.buf task.offset v task.opcode, .nvmWriteBlockCompleted task.len])
      (short : worker.stores < BUFFER_STORES)
      (stored : n = bufferStores before (start.blocksAt task.buf 0) task.offset v task.opcode
        worker.stores)
      (slot : v < slotNum blockNum) (placing : Placing at_ (InSlot md) task.offset v)
      (kept : Persisted start writes blockNum N d before at_ onSsd buf Nothing)
  /-- A large write that is not queued yet. -/
  | posting {N : Nat} {task : IoTask} {removed : List MixKv} {onSsd buf : Nat → Nat}
      (begun : worker.begun = N + 1) (nth : writes[N]? = some task)
      (actions : worker.actions =
        .postTaskToSsd task :: (clearActions removed ++ [.nvmWriteBlockCompleted 0]))
      (keys : removed.map Prod.fst = List.range' task.offset removed.length)
      (within : removed.length ≤ task.len)
      (out : ∀ k, Covers writes N k → ∀ v, ¬ InSlot md k v)
      (slots : ((removed ++ (md.segments firstSegment).hash.entries).map Prod.snd).Nodup)
      (kept : Persisted start writes blockNum N d n (fun k v => InSlot md k v ∨ (k, v) ∈ removed)
        onSsd buf Nothing)
  /-- A write whose actions are done but for the records it has still to clear. -/
  | clearing {N m : Nat} {removed : List MixKv} {onSsd buf : Nat → Nat}
      (begun : worker.begun = N + 1)
      (actions : worker.actions = clearActions removed ++ [.nvmWriteBlockCompleted m])
      (reported : 0 < m → ∀ k, Covers writes N k → ∃ v, InSlot md k v)
      (slots : ((removed ++ (md.segments firstSegment).hash.entries).map Prod.snd).Nodup)
      (kept : Persisted start writes blockNum (N + 1) d n
        (fun k v => InSlot md k v ∨ (k, v) ∈ removed) onSsd buf (fun k => ∃ v, (k, v) ∈ removed))

/-- The nvm_worker waits for the threads that migrate the segment as it was in `before`. -/
structure Migrates (start : Machine) (writes : List IoTask) (blockNum : Nat) (d : Device)
    (pc : Fin MIGRATE_THREAD_NUM → MigratePc) (before : Machine) : Prop where
  actions : d.worker.actions = []
  small : ∀ task, writes[d.worker.begun]? = some task → task.len ≤ WRITE_THRESHOLD
  queue : d.ssdQueue = []
  idle : d.ssd.Idle
  indexed : WellIndexed blockNum before.md
  run : ∃ sched, Run (migrateStep firstSegment) Apart (migrationStart before MIGRATE_THREAD_NUM)
    sched { m := d.m, pc := pc }
  kept : ∃ onSsd buf, Persisted start writes blockNum d.worker.begun { d with m := before }
    before.nvm (InSlot before.md) onSsd buf Nothing

/-- The invariant of all guarded runs. -/
inductive Recoverable (start : Machine) (writes : List IoTask) (blockNum : Nat) (d : Device) : Prop
  | works (migration : d.worker.migration = .outside) (indexed : WellIndexed blockNum d.m.md)
      (doing : Doing start writes blockNum d d.worker d.m.md d.m.nvm)
  | waits {onSsd buf : Nat → Nat} (migration : d.worker.migration = .waits)
      (indexed : WellIndexed blockNum d.m.md) (actions : d.worker.actions = [])
      (small : ∀ task, writes[d.worker.begun]? = some task → task.len ≤ WRITE_THRESHOLD)
      (kept : Persisted start writes blockNum d.worker.begun d d.m.nvm (InSlot d.m.md) onSsd buf
        Nothing)
  | drains {pc : Fin MIGRATE_THREAD_NUM → MigratePc} {before : Machine}
      (migration : d.worker.migration = .drains pc)
      (migrates : Migrates start writes blockNum d pc before)

section

variable {start : Machine} {writes : List IoTask} {blockNum capacity : Nat} {d d' : Device}
  {md md' : Metadata} {task : IoTask} {v : Nat}

/-! ## The ssd_worker -/

theorem Doing.ssdStep {worker : NvmWorker} {n : NvmBuffer}
    (requests : ∀ task ∈ writes, WriteTask task)
    (doing : Doing start writes blockNum d worker md n) (stepped : d.ssdStep = some d') :
    Doing start writes blockNum d' worker md n ∧ d'.worker = d.worker ∧ d'.m.md = d.m.md ∧
      d'.m.nvm = d.m.nvm := by
  cases doing with
  | idle actions kept =>
      obtain ⟨_, kept', same⟩ := kept.ssdStep requests stepped
      exact ⟨.idle actions kept', same⟩
  | storing begun nth single actions short stored slot placing kept =>
      obtain ⟨_, kept', same⟩ := kept.ssdStep requests stepped
      exact ⟨.storing begun nth single actions short stored slot placing kept', same⟩
  | posting begun nth actions keys within out slots kept =>
      obtain ⟨_, kept', same⟩ := kept.ssdStep requests stepped
      exact ⟨.posting begun nth actions keys within out slots kept', same⟩
  | clearing begun actions reported slots kept =>
      obtain ⟨_, kept', same⟩ := kept.ssdStep requests stepped
      exact ⟨.clearing begun actions reported slots kept', same⟩

/-- An ssd_worker that finds nothing to do. -/
theorem Device.ssdStep_idle (queue : d.ssdQueue = []) (idle : d.ssd.Idle) : ∃ empty pc,
    FlushPc.Idle pc ∧ ∀ m, { d with m := m }.ssdStep =
      some { d with m := m, queueEmpty := empty, ssd := pc } := by
  rcases idle with at_ | at_
  · exact ⟨d.queueEmpty, .foundEmpty, .inr rfl, fun m => by simp only [Device.ssdStep, at_, queue]⟩
  · exact ⟨true, .poll, .inl rfl, fun m => by simp only [Device.ssdStep, at_]⟩

/-- During a migration the ssd_worker finds nothing to do. -/
theorem Migrates.ssdStep {pc : Fin MIGRATE_THREAD_NUM → MigratePc} {before : Machine}
    (requests : ∀ task ∈ writes, WriteTask task)
    (migrates : Migrates start writes blockNum d pc before) (stepped : d.ssdStep = some d') :
    Migrates start writes blockNum d' pc before ∧ d'.worker = d.worker := by
  obtain ⟨actions, small, queue, idle, indexed, run, onSsd, buf, kept⟩ := migrates
  obtain ⟨empty, at_, idle', polls⟩ := Device.ssdStep_idle queue idle
  obtain rfl := Option.some.inj ((polls d.m).symm.trans stepped)
  obtain ⟨onSsd', kept', -⟩ := kept.ssdStep requests (polls before)
  exact ⟨⟨actions, small, queue, idle', indexed, run, onSsd', buf, kept'⟩, rfl⟩

theorem Recoverable.ssdStep (requests : ∀ task ∈ writes, WriteTask task)
    (held : Recoverable start writes blockNum d) (stepped : d.ssdStep = some d') :
    Recoverable start writes blockNum d' := by
  cases held with
  | works migration indexed doing =>
      obtain ⟨doing', worker, md, nvm⟩ := doing.ssdStep requests stepped
      refine .works ?_ ?_ ?_
      · rw [worker]
        exact migration
      · rw [md]
        exact indexed
      · rw [worker, md, nvm]
        exact doing'
  | waits migration indexed actions small kept =>
      obtain ⟨onSsd', kept', worker, md, nvm⟩ := kept.ssdStep requests stepped
      rw [← worker] at migration actions small
      rw [← md] at indexed
      rw [← worker, ← md, ← nvm] at kept'
      exact .waits migration indexed actions small kept'
  | drains migration migrates =>
      obtain ⟨migrates', worker⟩ := migrates.ssdStep requests stepped
      rw [← worker] at migration
      exact .drains migration migrates'

/-! ## A write begins -/

theorem nvmWorkerSsdTask_write (write : opCode task = MIX_WRITE) (md : Metadata) (idx : SegIdx) :
    nvmWorkerSsdTask md task idx = (redirectWrite md task idx).counted := by
  have notRead : ¬ MIX_WRITE = MIX_READ := by decide
  simp only [nvmWorkerSsdTask, write, if_neg notRead, if_true]

theorem SmallWrite.placing (all : AllIndexed md) (inRange : InRange task) {ret : Nat}
    (outcome : SmallWrite md task firstSegment (.done md' (bufferWrite md task firstSegment v) ret))
    (some_ : (md.segments firstSegment).hash.find? task.offset ≠ none ∨
      AllocSafe (md.segments firstSegment).bitmap firstSegment) :
    Placing (InSlot md) (InSlot md') task.offset v := by
  have ok := all firstSegment
  refine ⟨fun k w => ?_, fun k there => ?_, fun w there => ?_⟩
  · have entries := outcome.entries_iff all inRange some_ firstSegment w k
    simp only [true_and] at entries
    rw [InSlot, entries, and_comm (a := w = v)]
    rfl
  · rcases outcome.done_cases with ⟨found, -⟩ | ⟨-, -, first, -⟩
    · exact ok.slot_inj (ok.find?_eq_some_iff.2 there) found
    · exact absurd (List.mem_map_of_mem (f := Prod.snd) there) (ok.unused first.clear)
  · have found := ok.find?_eq_some_iff.2 there
    rcases outcome.done_cases with ⟨found', -⟩ | ⟨absent, -⟩
    · exact Option.some.inj (found.symm.trans found')
    · rw [absent] at found
      cases found

theorem WellIndexed.small (indexed : WellIndexed blockNum md) (inRange : InRange task)
    {actions : List Action} {ret : Nat}
    (outcome : SmallWrite md task firstSegment (.done md' actions ret)) :
    WellIndexed blockNum md' := by
  obtain ⟨all, size⟩ := outcome.allIndexed indexed.all inRange
  refine ⟨all, size.trans indexed.perBlockNum, ?_⟩
  rw [← indexed.bits]
  cases outcome with
  | overwrite => rfl
  | enter | leak =>
      rw [Metadata.setSegment_self]
      rfl

theorem WellIndexed.slot_lt (indexed : WellIndexed blockNum md) {ret : Nat}
    (outcome : SmallWrite md task firstSegment
      (.done md' (bufferWrite md task firstSegment v) ret)) : v < slotNum blockNum := by
  rw [← indexed.bits]
  rcases outcome.done_cases with ⟨found, -⟩ | ⟨-, -, first, -⟩
  · exact (indexed.all firstSegment).slot_lt _
      ((indexed.all firstSegment).find?_eq_some_iff.1 found)
  · exact first.lt

/-- A small write has its slot, and none of its stores is made yet. -/
theorem Recoverable.small {onSsd buf : Nat → Nat} {result : WriteResult}
    (indexed : WellIndexed blockNum d.m.md)
    (kept : Persisted start writes blockNum d.worker.begun d d.m.nvm (InSlot d.m.md) onSsd buf
      Nothing)
    (nth : writes[d.worker.begun]? = some task) (inRange : InRange task)
    (small : task.len ≤ WRITE_THRESHOLD) (outcome : SmallWrite d.m.md task firstSegment result)
    (some_ : (d.m.md.segments firstSegment).hash.find? task.offset ≠ none ∨
      AllocSafe (d.m.md.segments firstSegment).bitmap firstSegment)
    (stepped : d.begin result.counted = some d') : Recoverable start writes blockNum d' := by
  have single : task.len = 1 := by
    have := inRange.1
    simp only [WRITE_THRESHOLD] at small
    omega
  have whole := outcome
  cases outcome with
  | full | spins => cases stepped
  | @overwrite v | @enter v | @leak v =>
      obtain rfl := Option.some.inj stepped
      refine .works rfl (indexed.small inRange whole) (.storing rfl nth single ?_
        (show 0 < BUFFER_STORES by decide) rfl (indexed.slot_lt whole)
        (whole.placing indexed.all inRange some_)
        (kept.same ⟨rfl, rfl, rfl, rfl, rfl⟩ (Nat.le_succ _) rfl))
      rw [bufferWrite, bufferBlock_firstSegment]
      rfl

/-- A large write has taken its buffered blocks out of the index. -/
theorem Recoverable.large {onSsd buf : Nat → Nat} (indexed : WellIndexed blockNum d.m.md)
    (kept : Persisted start writes blockNum d.worker.begun d d.m.nvm (InSlot d.m.md) onSsd buf
      Nothing)
    (nth : writes[d.worker.begun]? = some task) (inRange : InRange task)
    (large : ¬ task.len ≤ WRITE_THRESHOLD) (whole : ClearsWhole d.m.md task firstSegment)
    (stepped : d.begin (redirectWrite d.m.md task firstSegment).counted = some d') :
    Recoverable start writes blockNum d' := by
  obtain ⟨removed, list, cleared⟩ :=
    clearBlockLoop_spec task.len task.offset d.m.md (indexed.all firstSegment) inRange.2
  rw [redirectWrite, if_neg large] at stepped
  obtain rfl := Option.some.inj stepped
  have all' := indexed.all.cleared cleared
  refine .works rfl ⟨all', cleared.perBlockNum.trans indexed.perBlockNum,
    cleared.bits.trans indexed.bits⟩ (.posting rfl nth ?_ cleared.keys cleared.length_le ?_ ?_
      ((kept.congr ?_ fun _ => Iff.rfl).same ⟨rfl, rfl, rfl, rfl, rfl⟩ (Nat.le_succ _) rfl))
  · show .postTaskToSsd task ::
      (List.map Action.bufferClear (mixClearBlock d.m.md task firstSegment).2 ++ _) = _
    rw [mixClearBlock, list, List.map_map]
    simp [clearActions]
  · rintro k ⟨task', nth', low, high⟩ v there
    obtain rfl := Option.some.inj (nth.symm.trans nth')
    obtain ⟨i, rfl⟩ := Nat.exists_eq_add_of_le low
    have absent := cleared.find?_inside indexed.all inRange whole (i := i) (by omega)
    have found := (all' firstSegment).find?_eq_some_iff.2 there
    rw [absent] at found
    cases found
  · exact (cleared.entries.map Prod.snd).nodup_iff.1 (indexed.all firstSegment).slots
  · intro k v
    rw [InSlot, InSlot, cleared.entries.mem_iff, List.mem_append]
    exact or_comm

/-- **The nvm_worker begins its next write, or finds that it has to migrate.** -/
theorem Recoverable.next {onSsd buf : Nat → Nat} (requests : ∀ task ∈ writes, WriteTask task)
    (indexed : WellIndexed blockNum d.m.md)
    (kept : Persisted start writes blockNum d.worker.begun d d.m.nvm (InSlot d.m.md) onSsd buf
      Nothing)
    (migration : d.worker.migration = .outside) (actions : d.worker.actions = [])
    (safe : d.StepSafe writes .nvm) (stepped : d.nvmStep capacity writes = some d') :
    Recoverable start writes blockNum d' := by
  have met := safe.1 migration actions
  simp only [Device.nvmStep, migration, actions, Device.nextTask] at stepped
  cases nth : writes[d.worker.begun]? with
  | none =>
      rw [nth] at stepped
      cases stepped
  | some task =>
      obtain ⟨write, inRange⟩ := requests task (List.mem_of_getElem? nth)
      have whole := met task nth
      rw [nth] at stepped
      simp only at stepped
      rw [nvmWorkerSsdTask_write write] at stepped
      by_cases small : task.len ≤ WRITE_THRESHOLD
      · have outcome := redirectWrite_small (indexed.all firstSegment) inRange small
        rw [WriteSafe, if_pos small] at whole
        generalize redirectWrite d.m.md task firstSegment = result at outcome stepped
        have slots := outcome
        cases outcome with
        | spins => cases stepped
        | full =>
            obtain rfl := Option.some.inj stepped
            refine .waits rfl indexed rfl ?_
              (kept.same ⟨rfl, rfl, rfl, rfl, rfl⟩ (Nat.le_refl _) rfl)
            intro task' nth'
            obtain rfl := Option.some.inj (nth.symm.trans nth')
            exact small
        | overwrite found =>
            exact .small indexed kept nth inRange small slots (.inl (by simp [found])) stepped
        | enter _ _ _ safe =>
            exact .small indexed kept nth inRange small slots (.inr safe) stepped
        | leak absent room first notSafe =>
            refine .small indexed kept nth inRange small slots (.inr ?_) stepped
            rcases whole with found | full | safe
            · exact absurd absent
                (by rwa [Ne, (indexed.all _).test_eq_neg_one_iff, u32_key inRange.key] at found)
            · exact absurd full room
            · exact safe
      · rw [WriteSafe, if_neg small] at whole
        refine .large indexed kept nth inRange small whole ?_
        rw [← stepped, redirectWrite, if_neg small]
        rfl

/-! ## The stores of a small write -/

/-- What a small write has brought to its slot once the record there names its block. -/
theorem stored_written {N k : Nat} {before : NvmBuffer} {at_ : Nat → Nat → Prop}
    {onSsd buf : Nat → Nat} (requests : ∀ task ∈ writes, WriteTask task)
    (begun : d.worker.begun = N + 1) (nth : writes[N]? = some task) (single : task.len = 1)
    (slot : v < slotNum blockNum) (placing : Placing at_ (InSlot md) task.offset v)
    (kept : Persisted start writes blockNum N d before at_ onSsd buf Nothing)
    (copied : BLOCK_WORDS ≤ k)
    (names : RecordNames
      (bufferStores before (start.blocksAt task.buf 0) task.offset v task.opcode k) v task.offset) :
    Persisted start writes blockNum (N + 1) d
      (bufferStores before (start.blocksAt task.buf 0) task.offset v task.opcode k) (InSlot md)
      onSsd (Function.update buf task.offset (N + 1)) Nothing := by
  have inRange := (requests task (List.mem_of_getElem? nth)).inRange
  refine kept.written placing slot inRange.key (by omega) ?_ ?_ names
    fun w other => bufferStores_of_ne other
  · rintro k ⟨task', nth', low, high⟩
    obtain rfl := Option.some.inj (nth.symm.trans nth')
    omega
  · rw [bufferStores_block copied, ← Nat.sub_self task.offset]
    exact .write nth (Nat.le_refl _) (by omega)

/-- With all stores made the record names the block. -/
theorem recordNames_stored {before : NvmBuffer} {src : Block} {srcBlock flags : Nat} :
    RecordNames (bufferStores before src srcBlock v flags BUFFER_STORES) v srcBlock :=
  ⟨valid_stores (by decide), offset_stores_after (by decide)⟩

/-! ## The nvm_worker goes on -/

theorem clearActions_count (removed : List MixKv) (n : Nat) :
    (clearActions removed ++ [Action.nvmWriteBlockCompleted n]).countP Action.clears =
      removed.length := by
  have each : ∀ a ∈ clearActions removed, a.clears = true := by
    intro a member
    obtain ⟨kv, -, rfl⟩ := List.mem_map.1 member
    rfl
  rw [List.countP_append, List.countP_eq_length.2 each, clearActions, List.length_map]
  rfl

/-- The first of the records that are still to be cleared. -/
theorem Persisted.clear_head {N : Nat} {n : NvmBuffer} {kv : MixKv} {removed : List MixKv}
    {onSsd buf : Nat → Nat} (word : blockNum < 2 ^ 32)
    (slots : ((kv :: removed ++ (md.segments firstSegment).hash.entries).map Prod.snd).Nodup)
    (kept : Persisted start writes blockNum N d n
      (fun k v => InSlot md k v ∨ (k, v) ∈ kv :: removed) onSsd buf
      (fun k => ∃ v, (k, v) ∈ kv :: removed)) :
    Persisted start writes blockNum N d (mixBufferClear n kv.2)
      (fun k v => InSlot md k v ∨ (k, v) ∈ removed) onSsd buf (fun k => ∃ v, (k, v) ∈ removed) := by
  have here : (kv.1, kv.2) ∈ kv :: removed := List.mem_cons_self
  have once := (List.nodup_cons.1 slots).1
  have other : ∀ {k v}, (k, v) ∈ removed ++ (md.segments firstSegment).hash.entries →
      v ≠ kv.2 := by
    rintro k v there rfl
    exact once (List.mem_map.2 ⟨(k, kv.2), there, rfl⟩)
  apply (kept.cleared word (.inr here) ⟨kv.2, here⟩).congr
  · intro k v
    constructor
    · rintro (entry | later)
      · exact ⟨.inl entry, other (List.mem_append_right _ entry)⟩
      · exact ⟨.inr (List.mem_cons_of_mem _ later), other (List.mem_append_left _ later)⟩
    · rintro ⟨entry | gone, apart⟩
      · exact .inl entry
      · rcases List.mem_cons.1 gone with rfl | later
        · exact absurd rfl apart
        · exact .inr later
  · intro k
    constructor
    · rintro ⟨v, later⟩
      refine ⟨⟨v, List.mem_cons_of_mem _ later⟩, ?_⟩
      rintro rfl
      exact other (List.mem_append_left _ later)
        (kept.shelf.one_slot _ _ _ (.inr (List.mem_cons_of_mem _ later)) (.inr here))
    · rintro ⟨⟨v, gone⟩, apart⟩
      rcases List.mem_cons.1 gone with rfl | later
      · exact absurd rfl apart
      · exact ⟨v, later⟩

/-- **A step of the nvm_worker inside a write.** -/
theorem Doing.act {action : Action} {rest : List Action}
    (requests : ∀ task ∈ writes, WriteTask task) (word : blockNum < 2 ^ 32)
    (migration : d.worker.migration = .outside) (indexed : WellIndexed blockNum d.m.md)
    (doing : Doing start writes blockNum d d.worker d.m.md d.m.nvm)
    (actions : d.worker.actions = action :: rest) (stepped : d.act capacity action rest = some d') :
    Recoverable start writes blockNum d' := by
  cases doing with
  | idle none_ =>
      rw [actions] at none_
      cases none_
  | @storing N v task before at_ onSsd buf begun nth single now short stored slot placing kept =>
      obtain ⟨rfl, rfl⟩ := List.cons.inj (actions.symm.trans now)
      have source : d.m.mem.load task.buf = start.blocksAt task.buf 0 := by
        rw [kept.tracked.ledger.mem, Machine.blocksAt, Nat.zero_mul, Nat.add_zero]
      have stores : bufferStore d.m.nvm (d.m.mem.load task.buf) task.offset v task.opcode
          d.worker.stores = bufferStores before (start.blocksAt task.buf 0) task.offset v
            task.opcode (d.worker.stores + 1) := by
        rw [source, stored]
        rfl
      simp only [Device.act, stores] at stepped
      split at stepped
      · rename_i last
        obtain rfl := Option.some.inj stepped
        rw [last]
        have written := stored_written requests begun nth single slot placing kept
          (k := BUFFER_STORES) (by decide) recordNames_stored
        have kept' : Persisted start writes blockNum (N + 1) d _
            (fun k v => InSlot d.m.md k v ∨ (k, v) ∈ ([] : List MixKv)) onSsd _
            (fun k => ∃ v, (k, v) ∈ ([] : List MixKv)) :=
          written.congr (by simp) (by simp [Nothing])
        refine .works migration indexed (.clearing begun rfl ?_ (indexed.all firstSegment).slots
          (kept'.same ⟨rfl, rfl, rfl, rfl, rfl⟩ (Nat.le_refl _) rfl))
        rintro - k ⟨task', nth', low, high⟩
        obtain rfl := Option.some.inj (nth.symm.trans nth')
        obtain rfl : k = task.offset := by omega
        exact ⟨v, placing.here⟩
      · rename_i more
        obtain rfl := Option.some.inj stepped
        exact .works migration indexed (.storing begun nth single actions
          (show d.worker.stores + 1 < BUFFER_STORES by omega) rfl slot placing
          (kept.same ⟨rfl, rfl, rfl, rfl, rfl⟩ (Nat.le_refl _) rfl))
  | @posting N task removed onSsd buf begun nth now keys within out slots kept =>
      obtain ⟨rfl, rfl⟩ := List.cons.inj (actions.symm.trans now)
      simp only [Device.act, clearActions_count, begun, Nat.add_sub_cancel] at stepped
      split at stepped
      · obtain rfl := Option.some.inj stepped
        refine .works migration indexed (.clearing begun rfl (fun reports => absurd reports
          (Nat.lt_irrefl 0)) slots (kept.posted ⟨nth, Nat.lt_succ_self N, within⟩ rfl
            (Nat.le_refl _) ?_ ?_))
        · rintro k v (there | gone) covers
          · exact absurd there (out k covers v)
          · exact ⟨v, gone⟩
        · rintro k ⟨v, gone⟩
          have key := List.mem_map_of_mem (f := Prod.fst) gone
          rw [keys, List.mem_range'_1] at key
          exact key
      · cases stepped
  | @clearing N m removed onSsd buf begun now reported slots kept =>
      cases removed with
      | nil =>
          obtain ⟨rfl, rfl⟩ := List.cons.inj (actions.symm.trans now)
          have plain : Persisted start writes blockNum (N + 1) d d.m.nvm (InSlot d.m.md) onSsd buf
              Nothing := kept.congr (by simp) (by simp [Nothing])
          rw [← begun] at plain
          simp only [Device.act, begun, Nat.add_sub_cancel] at stepped
          split at stepped
          · rename_i reports
            obtain rfl := Option.some.inj stepped
            exact .works migration indexed (.idle rfl
              ((plain.counted (by omega) (reported reports)).same ⟨rfl, rfl, rfl, rfl, rfl⟩
                (Nat.le_refl _) rfl))
          · obtain rfl := Option.some.inj stepped
            exact .works migration indexed (.idle rfl
              (plain.same ⟨rfl, rfl, rfl, rfl, rfl⟩ (Nat.le_refl _) rfl))
      | cons kv removed =>
          obtain ⟨rfl, rfl⟩ := List.cons.inj (actions.symm.trans now)
          obtain rfl := Option.some.inj stepped
          exact .works migration indexed (.clearing begun rfl reported
            (List.nodup_cons.1 slots).2 ((kept.clear_head word slots).same
              ⟨rfl, rfl, rfl, rfl, rfl⟩ (Nat.le_refl _) rfl))

/-! ## Migrations -/

section

variable {pc : Fin MIGRATE_THREAD_NUM → MigratePc} {before : Machine}

theorem Migrates.migrateStep {t : Fin MIGRATE_THREAD_NUM}
    (migrates : Migrates start writes blockNum d pc before)
    (migration : d.worker.migration = .drains pc) (safe : d.StepSafe writes (.migrate t))
    (stepped : d.migrateStep t = some d') : Recoverable start writes blockNum d' := by
  simp only [Device.migrateStep, migration] at stepped
  obtain ⟨next, taken, rfl⟩ := Option.map_eq_some_iff.1 stepped
  obtain ⟨sched, run⟩ := migrates.run
  obtain ⟨onSsd, buf, kept⟩ := migrates.kept
  exact .drains rfl ⟨migrates.actions, migrates.small, migrates.queue, migrates.idle,
    migrates.indexed, ⟨sched ++ [t], run.append (.cons (safe pc migration) taken (.nil _))⟩,
    onSsd, buf, kept.same ⟨rfl, rfl, rfl, rfl, rfl⟩ (Nat.le_refl _) rfl⟩

/-- The wait, and its end: the ssd_worker has nothing to do. -/
theorem Recoverable.wait {onSsd buf : Nat → Nat} (migration : d.worker.migration = .waits)
    (indexed : WellIndexed blockNum d.m.md) (actions : d.worker.actions = [])
    (small : ∀ task, writes[d.worker.begun]? = some task → task.len ≤ WRITE_THRESHOLD)
    (kept : Persisted start writes blockNum d.worker.begun d d.m.nvm (InSlot d.m.md) onSsd buf
      Nothing)
    (safe : d.StepSafe writes .nvm) (stepped : d.nvmStep capacity writes = some d') :
    Recoverable start writes blockNum d' := by
  simp only [Device.nvmStep, migration] at stepped
  split at stepped
  · rename_i empty
    obtain ⟨queue, idle⟩ := safe.2 migration empty
    obtain rfl := Option.some.inj stepped
    exact .drains rfl ⟨actions, small, queue, idle, indexed, ⟨[], .nil _⟩, onSsd, buf,
      kept.same ⟨rfl, rfl, rfl, rfl, rfl⟩ (Nat.le_refl _) rfl⟩
  · obtain rfl := Option.some.inj stepped
    exact .waits migration indexed actions small kept

/-- What is on the shelf at this point of the migration. -/
theorem Migrates.persisted (word : blockNum < 2 ^ 32)
    (migrates : Migrates start writes blockNum d pc before) :
    ∃ (gone : MixKv → Prop) (onSsd buf : Nat → Nat),
      Persisted start writes blockNum d.worker.begun d d.m.nvm
        (fun k v => InSlot before.md k v ∧ ¬ gone (k, v)) onSsd buf Nothing ∧
      ((∀ t, pc t = .done) → ∀ k v, InSlot before.md k v → gone (k, v)) := by
  obtain ⟨sched, run⟩ := migrates.run
  obtain ⟨onSsd, buf, kept⟩ := migrates.kept
  obtain ⟨gone, mid, finished⟩ := midway (migrates.indexed.all firstSegment).drainable run
  obtain ⟨onSsd', kept'⟩ := kept.midway word (fun _ _ => Iff.rfl) rfl migrates.queue
    migrates.idle mid
  exact ⟨gone, onSsd', buf, kept', fun ends k v there => finished (by decide) ends (k, v) there⟩

/-- **The migration is over, and the write that waited for it gets its slot.** -/
theorem Migrates.ends (word : blockNum < 2 ^ 32) (some_block : 0 < blockNum / SEGMENT_NUM)
    (requests : ∀ task ∈ writes, WriteTask task)
    (migrates : Migrates start writes blockNum d pc before)
    (migration : d.worker.migration = .drains pc)
    (stepped : d.nvmStep capacity writes = some d') : Recoverable start writes blockNum d' := by
  simp only [Device.nvmStep, migration] at stepped
  split at stepped
  · rename_i ends
    obtain ⟨task, nth, begins⟩ := Option.bind_eq_some_iff.1 stepped
    have inRange := (requests task (List.mem_of_getElem? nth)).inRange
    obtain ⟨sched, run⟩ := migrates.run
    obtain ⟨all, size, bits⟩ := migrates.indexed
    have ok := (all firstSegment).drainable
    obtain ⟨fin, drained⟩ := drained_of_exec ok.lens ok.proper run.exec
    have done : Migrated firstSegment before (migrationEnd d.m firstSegment) :=
      migrated_of_done drained ends
    obtain ⟨gone, onSsd, buf, kept, finished⟩ := migrates.persisted word
    have indexed : WellIndexed blockNum (migrationEnd d.m firstSegment).md := by
      refine ⟨all.migrated done, done.perBlockNum.trans size, ?_⟩
      rw [← bits]
      exact (congrArg Bitmap.bits done.bitmap).trans (clear_bits _)
    have outcome := redirectWriteAfterMigration_spec done (all firstSegment)
      (by rw [size]; exact some_block) inRange
    have empty : ((migrationEnd d.m firstSegment).md.segments firstSegment).hash.entries = [] :=
      done.entries
    refine Recoverable.small (d := { d with m := migrationEnd d.m firstSegment }) indexed
      ((kept.congr ?_ fun _ => Iff.rfl).same ⟨rfl, rfl, rfl, rfl, rfl⟩ (Nat.le_refl _) rfl) nth
      inRange (migrates.small task nth) outcome (.inr done.allocSafe) begins
    intro k v
    rw [InSlot, empty]
    exact iff_of_false List.not_mem_nil fun there => there.2 (finished ends k v there.1)
  · cases stepped

end

/-! ## Runs -/

/-- **Every guarded step keeps the invariant.** -/
theorem Recoverable.step (word : blockNum < 2 ^ 32) (some_block : 0 < blockNum / SEGMENT_NUM)
    (requests : ∀ task ∈ writes, WriteTask task) (held : Recoverable start writes blockNum d)
    {turn : Turn} (safe : d.StepSafe writes turn)
    (stepped : d.step capacity writes turn = some d') : Recoverable start writes blockNum d' := by
  cases turn with
  | ssd => exact held.ssdStep requests stepped
  | migrate t =>
      cases held with
      | works migration | waits migration =>
          simp only [Device.step, Device.migrateStep, migration] at stepped
          cases stepped
      | drains migration migrates => exact migrates.migrateStep migration safe stepped
  | nvm =>
      cases held with
      | drains migration migrates =>
          exact migrates.ends word some_block requests migration stepped
      | waits migration indexed actions small kept =>
          exact .wait migration indexed actions small kept safe stepped
      | works migration indexed doing =>
          cases actions : d.worker.actions with
          | cons action rest =>
              have acted : d.act capacity action rest = some d' := by
                simpa only [Device.step, Device.nvmStep, migration, actions] using stepped
              exact doing.act requests word migration indexed actions acted
          | nil =>
              cases doing with
              | idle _ kept => exact .next requests indexed kept migration actions safe stepped
              | storing _ _ _ now | posting _ _ now | clearing _ now =>
                  rw [actions] at now
                  simp at now

/-! ## Crashes -/

theorem Persisted.crash {N : Nat} {at_ : Nat → Nat → Prop} {onSsd buf : Nat → Nat}
    {rest : Nat → Prop} (word : blockNum < 2 ^ 32) (upto : N ≤ d.worker.begun)
    (kept : Persisted start writes blockNum N d d.m.nvm at_ onSsd buf rest)
    (safe : d.CrashSafe blockNum) (uncounted : ∀ k, rest k → N - 1 ∉ d.completed) :
    d.Durable start writes blockNum := by
  apply kept.durable word upto _ uncounted
  intro w waits b clears
  obtain ⟨v, inside, names⟩ := safe.held w waits b clears.1 clears.2
  exact ⟨v, (kept.shelf.names v inside b).1 names⟩

/-- **A crash among the stores of a small write.** -/
theorem storing_durable {N : Nat} {before : NvmBuffer} {at_ : Nat → Nat → Prop}
    {onSsd buf : Nat → Nat} (word : blockNum < 2 ^ 32)
    (requests : ∀ task ∈ writes, WriteTask task) (begun : d.worker.begun = N + 1)
    (nth : writes[N]? = some task) (single : task.len = 1)
    (stored : d.m.nvm = bufferStores before (start.blocksAt task.buf 0) task.offset v task.opcode
      d.worker.stores)
    (slot : v < slotNum blockNum) (placing : Placing at_ (InSlot d.m.md) task.offset v)
    (kept : Persisted start writes blockNum N d before at_ onSsd buf Nothing)
    (whole : StoresWhole d.m.nvm d.worker.stores task.offset v) (safe : d.CrashSafe blockNum) :
    d.Durable start writes blockNum := by
  have inside : v < (mixMetadataInit blockNum).perBlockNum :=
    Nat.lt_of_lt_of_le slot (slotNum_le word)
  have none_ : ∀ k, Nothing k → N - 1 ∉ d.completed := fun k waits => waits.elim
  by_cases valid : (d.m.nvm.metas v).valid = true
  · rcases whole.1 valid with zero | copied
    · -- nothing is stored yet
      rw [zero] at stored
      have kept' : Persisted start writes blockNum N d d.m.nvm at_ onSsd buf Nothing := by
        rw [stored]
        exact kept
      exact kept'.crash word (by omega) safe none_
    · -- the block is copied, and the record names it already
      have names : RecordNames d.m.nvm v task.offset := by
        refine ⟨valid, ?_⟩
        by_cases later : BLOCK_WORDS < d.worker.stores
        · exact whole.2 later
        · have old : ∀ k, RecordNames d.m.nvm v k → k = task.offset := by
            intro k names
            rw [stored, recordNames_stores_data (Nat.le_of_not_lt later)] at names
            exact placing.same_slot k ((kept.shelf.names v inside k).1 names)
          exact old _ ⟨valid, rfl⟩
      rw [stored] at names
      have written := stored_written requests begun nth single slot placing kept copied names
      rw [← stored] at written
      exact written.crash word (by omega) safe fun k waits => waits.elim
  · -- the record is invalid, so the slot's block does not matter
    have inData : d.worker.stores ≤ BLOCK_WORDS := by
      by_contra later
      apply valid
      rw [stored]
      exact valid_stores (Nat.lt_of_not_le later)
    have same : ∀ w k, RecordNames d.m.nvm w k ↔ RecordNames before w k := by
      intro w k
      rw [stored]
      exact recordNames_stores_data inData
    have shelf : Shelf start writes blockNum d.m.nvm at_ buf := by
      refine ⟨?_, ?_, kept.shelf.slot_lt, kept.shelf.key_lt, kept.shelf.one_slot⟩
      · intro w inside k
        rw [same, kept.shelf.names w inside]
      · intro k w there
        have other : w ≠ v := by
          rintro rfl
          exact valid ((same w k).2 ((kept.shelf.names w inside k).2 there)).1
        rw [stored, (bufferStores_of_ne other).1]
        exact kept.shelf.block k w there
    exact Persisted.crash word (by omega) ⟨shelf, kept.tracked⟩ safe none_

/-- **A safe crash loses no completed write.** -/
theorem Recoverable.durable (word : blockNum < 2 ^ 32)
    (requests : ∀ task ∈ writes, WriteTask task) (held : Recoverable start writes blockNum d)
    (safe : d.CrashSafe blockNum) : d.Durable start writes blockNum := by
  cases held with
  | drains migration migrates =>
      obtain ⟨gone, onSsd, buf, kept, -⟩ := migrates.persisted word
      exact kept.crash word (Nat.le_refl _) safe fun k waits => waits.elim
  | waits _ _ _ _ kept => exact kept.crash word (Nat.le_refl _) safe fun k waits => waits.elim
  | works migration indexed doing =>
      cases doing with
      | idle _ kept => exact kept.crash word (Nat.le_refl _) safe fun k waits => waits.elim
      | storing begun nth single actions _ stored slot placing kept =>
          exact storing_durable word requests begun nth single stored slot placing kept
            (safe.whole _ _ _ _ _ actions) safe
      | posting begun _ _ _ _ _ _ kept =>
          exact kept.crash word (by omega) safe fun k waits => waits.elim
      | @clearing N _ removed _ _ begun actions _ _ kept =>
          refine kept.crash word (by omega) safe ?_
          rintro k ⟨v, gone⟩
          have clears : .bufferClear v ∈ d.worker.actions := by
            rw [actions]
            exact List.mem_append_left _ (List.mem_map.2 ⟨(k, v), gone, rfl⟩)
          have uncounted := safe.cleared _ clears rfl
          rwa [begun] at uncounted

/-- The device at start-up. -/
theorem Recoverable.init (word : blockNum < 2 ^ 32) (fresh : start.md = mixMetadataInit blockNum)
    (blank : ∀ v < blockNum / SEGMENT_NUM, (start.nvm.metas v).valid = false) :
    Recoverable start writes blockNum (.start start) := by
  have none_ : ∀ k v, ¬ InSlot start.md k v := by
    intro k v there
    rw [InSlot, fresh, mixMetadataInit_entries] at there
    cases there
  have indexed : WellIndexed blockNum start.md := by
    rw [fresh]
    exact ⟨mixMetadataInit_indexed word, rfl, rfl⟩
  have shelf : Shelf start writes blockNum start.nvm (InSlot start.md) fun _ => 0 := by
    refine ⟨fun v inside k => ?_, fun k v there => absurd there (none_ k v),
      fun k v there => absurd there (none_ k v), fun k v there => absurd there (none_ k v),
      fun k v w there => absurd there (none_ k v)⟩
    refine iff_of_false (fun names => ?_) (none_ k v)
    have invalid := blank v inside
    exact Bool.false_ne_true (invalid.symm.trans names.1)
  exact .works rfl indexed (.idle rfl ⟨shelf, .init start writes _⟩)

/-- **Crash durability.**  After any guarded run of the two workers and the migrate threads, a
safe crash leaves each block with its latest completed write, or with a later one. -/
theorem crash_durable (word : blockNum < 2 ^ 32) (some_block : 0 < blockNum / SEGMENT_NUM)
    (fresh : start.md = mixMetadataInit blockNum)
    (blank : ∀ v < blockNum / SEGMENT_NUM, (start.nvm.metas v).valid = false)
    (requests : ∀ task ∈ writes, WriteTask task) {turns : List Turn}
    (run : Run (Device.step capacity writes) (Device.StepSafe writes) (Device.start start) turns d)
    (crash : d.CrashSafe blockNum) : d.Durable start writes blockNum := by
  have held := run.invariant
    (fun _ _ _ held safe stepped => Recoverable.step word some_block requests held safe stepped)
    (.init word fresh blank)
  exact held.durable word requests crash

end

/-! ## A lost write -/

/-- Eight buffer blocks for each segment, and ones in the callers' memory. -/
def onesInMemory : Machine := { smallBuffer with mem := fun _ => 1 }

/-- A small write of block 5, then a large one of blocks 5 and 6. -/
def overwriting : List IoTask := [writeTask 5 1, writeTask 5 2]

theorem overwriting_requests : ∀ task ∈ overwriting, WriteTask task := by
  intro task member
  simp only [overwriting, List.mem_cons, List.not_mem_nil, or_false] at member
  rcases member with rfl | rfl
  · exact ⟨by decide, by decide⟩
  · exact ⟨by decide, by decide⟩

/-- The small write is counted, the large one queued and its record cleared; then the device
crashes. -/
theorem queuedWrite_lost : (∀ task ∈ overwriting, WriteTask task) ∧
    ∃ d, exec (Device.step 4 overwriting) (.start onesInMemory) (List.replicate 521 .nvm) =
      some d ∧ 0 ∈ d.completed ∧ ¬ d.Durable onesInMemory overwriting 32 := by
  have run : (exec (Device.step 4 overwriting) (.start onesInMemory)
      (List.replicate 521 .nvm)).map (fun d => (d.completed, d.m.ssd 5 ⟨0, by decide⟩,
        mixBufferBlockTest (recoveredMetadata 32 d.m.nvm firstSegment) 5 firstSegment)) =
      some ([0], 0, -1) := by
    decide +kernel
  obtain ⟨d, ran, seen⟩ := Option.map_eq_some_iff.1 run
  simp only [Prod.mk.injEq] at seen
  obtain ⟨counted, zero, missed⟩ := seen
  have first : 0 ∈ d.completed := by
    rw [counted]
    exact List.mem_singleton_self 0
  refine ⟨overwriting_requests, d, ran, first, fun durable => ?_⟩
  obtain ⟨v, version, -, newer⟩ := durable 5 (by decide)
  have later := newer 0 first ⟨writeTask 5 1, rfl, by decide, by decide⟩
  have block : d.m.recoveredBlock 32 firstSegment 5 = d.m.ssd 5 := by
    rw [Machine.recoveredBlock, missed]
    rfl
  rw [block] at version
  generalize d.m.ssd 5 = content at version zero
  cases version with
  | initial => exact absurd later (Nat.lt_irrefl 0)
  | write nth low high =>
      -- every write brings ones
      have one : (1 : UInt8) = 0 := zero
      exact absurd one (by decide)

/-- `StepSafe` of a device that migrates nothing. -/
def Device.safeOutside (writes : List IoTask) (d : Device) : Bool :=
  match d.worker.migration, d.worker.actions, writes[d.worker.begun]? with
  | .outside, [], some task => decide (WriteSafe d.m.md task firstSegment)
  | .outside, _, _ => true
  | _, _, _ => false

theorem Device.stepSafe_of_outside {writes : List IoTask} {d : Device} (turn : Turn)
    (safe : d.safeOutside writes = true) : d.StepSafe writes turn := by
  unfold Device.safeOutside at safe
  cases at_ : d.worker.migration with
  | waits | drains => simp [at_] at safe
  | outside =>
      cases turn with
      | ssd => trivial
      | migrate t =>
          intro pc drains
          rw [at_] at drains
          cases drains
      | nvm =>
          refine ⟨fun _ actions task nth => ?_, fun waits => ?_⟩
          · rw [at_, actions, nth] at safe
            exact of_decide_eq_true safe
          · rw [at_] at waits
            cases waits

/-- Once the large write is on the SSD a crash does no harm. -/
theorem overwriting_durable : ∃ d,
    exec (Device.step 4 overwriting) (.start onesInMemory)
      (List.replicate 522 .nvm ++ List.replicate 5 .ssd) = some d ∧
    d.completed = [1, 0] ∧ d.Durable onesInMemory overwriting 32 := by
  have run : (exec (fun d turn =>
      if d.safeOutside overwriting then Device.step 4 overwriting d turn else none)
      (.start onesInMemory) (List.replicate 522 .nvm ++ List.replicate 5 .ssd)).map
        (fun d => (d.completed, d.worker.actions, d.pend)) = some ([1, 0], [], []) := by
    decide +kernel
  obtain ⟨d, ran, seen⟩ := Option.map_eq_some_iff.1 run
  simp only [Prod.mk.injEq] at seen
  obtain ⟨counted, actions, pend⟩ := seen
  have guarded : Run (Device.step 4 overwriting) (Device.StepSafe overwriting)
      (.start onesInMemory) (List.replicate 522 .nvm ++ List.replicate 5 .ssd) d :=
    .of_checked (fun _ turn => Device.stepSafe_of_outside turn) ran
  have blank : ∀ v < 32 / SEGMENT_NUM, (onesInMemory.nvm.metas v).valid = false := by
    intro v _
    show BufferMeta.valid ⟨0, 0, 0, 0⟩ = false
    decide
  have crash : d.CrashSafe 32 := by
    refine ⟨?_, ?_, ?_⟩
    · intro src srcBlock dstBlock flags rest now
      rw [actions] at now
      cases now
    · rw [pend]
      exact List.forall_mem_nil _
    · rw [actions]
      exact List.forall_mem_nil _
  exact ⟨d, guarded.exec, counted, crash_durable (by decide) (by decide) rfl blank
    overwriting_requests guarded crash⟩

end Mixdk
