/-
# Durability.Mapping -- no thread leaves the mapping of the NVM

`mix_mmap` maps the blocks at `nvm_addr`, the records at `meta_addr` and the blocks at
`buffer_addr` in one piece, and nothing in `nvm.c` looks at a block number.  That every number
is good is up to the callers: the scheduler sends to the NVM queues only what lies below its
threshold, the slots of the index are below `per_block_num`, and a migrate thread passes on
what it popped (`Bounded`).  So no call of any thread leaves its region, and two nvm_workers
never meet in the buffer (`pmem_safe`).
-/
import Mixdk.Pipeline.Batch
import Mixdk.Pipeline.Indexes
import Mixdk.Durability.RoundTrip

namespace Mixdk

open Transition

set_option autoImplicit false

/-! ## The calls -/

/-- `nvm_info->block_num`, as `mix_nvm_init` sets it. -/
def NVM_BLOCK_NUM : Nat := 16 * 1024 * 1024

/-- A call of `nvm.c` on the mapping, block by block. -/
inductive PmemCall
  | nvmRead (block : Nat)
  | nvmWrite (src : Block) (block : Nat)
  | bufferRead (block : Nat)
  | buffer (call : BufferCall)

namespace PmemCall

/-- The call stays in the region it is about, and what it records fits the words of a record. -/
def InRegion : PmemCall → Prop
  | .nvmRead block | .nvmWrite _ block => block < NVM_BLOCK_NUM
  | .bufferRead block => block < BUFFER_BLOCK_NUM
  | .buffer call => call.Proper

/-- The buffer block the call is about. -/
def bufferBlock : PmemCall → Option Nat
  | .nvmRead _ | .nvmWrite _ _ => none
  | .bufferRead block | .buffer (.write _ _ block _) | .buffer (.clear block) => some block

end PmemCall

def Action.call (m : Machine) : Action → Option PmemCall
  | .readFromBuffer _ block => some (.bufferRead block)
  | .writeToBuffer src key block flags => some (.buffer (.write (m.mem.load src) key block flags))
  | .bufferClear block => some (.buffer (.clear block))
  | .postTaskToSsd _ | .addRet _ _ | .nvmWriteBlockCompleted _ => none

def Deed.call (m : Machine) : Deed → Option PmemCall
  | .act a => a.call m
  | .nvmRead _ block => some (.nvmRead block)
  | .nvmWrite src block => some (.nvmWrite (m.mem.load src) block)

def MigratePc.call : MigratePc → Option PmemCall
  | .read _ kv => some (.bufferRead kv.2)
  | .clear _ kv => some (.buffer (.clear kv.2))
  | .pop _ | .stage _ _ | .flush _ _ | .count _ _ | .done => none

def NvmPc.call (m : Machine) : NvmPc → Option PmemCall
  | .doing _ (deed :: _) => deed.call m
  | .doing _ [] | .poll | .full _ | .migrating _ => none

/-- The call that a turn makes. -/
def Pipeline.call (s : Pipeline) : Pipeline.Turn → Option PmemCall
  | .nvm idx => (s.station idx).nvm.call s.m
  | .migrate t => s.migration.bind fun running => (running.2 t).call
  | .post _ | .free _ _ | .scheduler | .ssd _ => none

/-! ## Bounds -/

/-- An action stays in its segment's part of the buffer, and what it records fits its words. -/
structure Action.Bounded (P : Nat) (idx : SegIdx) (a : Action) : Prop where
  inSegment : a.InSegment P idx
  words : ∀ src key block flags, a = .writeToBuffer src key block flags →
    key < NO_ENTRY ∧ flags < 2 ^ 64

def Deed.Bounded (P : Nat) (idx : SegIdx) : Deed → Prop
  | .act a => a.Bounded P idx
  | .nvmRead _ block | .nvmWrite _ block => block < SCHEDULER_THRESHOLD

def NvmPc.Bounded (P : Nat) (idx : SegIdx) : NvmPc → Prop
  | .poll => True
  | .doing _ deeds => ∀ deed ∈ deeds, deed.Bounded P idx
  | .full task | .migrating task => task.opcode < 2 ^ 64

/-- The task ends below the threshold of the scheduler. -/
def IoTask.Below (task : IoTask) : Prop := task.offset + task.len < SCHEDULER_THRESHOLD

structure Station.Bounded (P : Nat) (idx : SegIdx) (station : Station) : Prop where
  buffer : ∀ task ∈ station.bufferQueue, task.opcode < 2 ^ 64
  nvmQueue : ∀ task ∈ station.nvmQueue, task.Below
  nvm : station.nvm.Bounded P idx

def Post.Bounded : Post → Prop
  | .nvm task => task.Below
  | .buffer _ task => task.opcode < 2 ^ 64

/-- The task is for one of the two regions, and its `opcode` is a `size_t`. -/
def IoTask.Bounded (task : IoTask) : Prop := task.Sided ∧ task.opcode < 2 ^ 64

/-- The flags of a request are a `size_t`. -/
def Request.Word : Request → Prop
  | .read _ _ _ flags _ _ | .write _ _ _ flags _ => flags < 2 ^ 64

structure Pipeline.Bounded (P : Nat) (s : Pipeline) : Prop where
  toPost : ∀ i, ∀ request ∈ s.toPost i, (request.task i).Bounded
  submitted : ∀ i, ∀ task ∈ s.submitQueue i, task.Bounded
  hand : ∀ post ∈ s.hand, post.Bounded
  station : ∀ idx, (s.station idx).Bounded P idx

section

variable {P : Nat} {md md' : Metadata} {idx : SegIdx} {task : IoTask} {actions : List Action}
  {ret : Nat}

theorem Request.Regional.bounded {request : Request} (regional : request.Regional)
    (word : request.Word) (i : Nat) : (request.task i).Bounded := by
  refine ⟨regional.sided i, ?_⟩
  cases request with
  | read | write => exact Nat.or_lt_two_pow (by decide) word

theorem ssdPosts_bounded (type : task.type = SSD_TASK) (word : task.opcode < 2 ^ 64) :
    ∀ post ∈ doSchedule task, post.Bounded := by
  intro post member
  rw [doSchedule_ssd type] at member
  obtain ⟨part, inside, rfl⟩ := List.mem_map.1 member
  obtain ⟨b, len, rfl, -⟩ := (mixPostTaskToBuffer_splits _).member inside
  exact word

/-- What the scheduler makes of a task of one of the regions. -/
theorem doSchedule_bounded (bounded : task.Bounded) :
    ∀ post ∈ doSchedule (handleTask task), post.Bounded := by
  obtain ⟨sided, word⟩ := bounded
  unfold handleTask
  split
  next below =>
    rw [doSchedule_nvm rfl]
    exact List.forall_mem_singleton.2 below
  next notBelow =>
    rw [if_pos (sided.resolve_left notBelow)]
    exact ssdPosts_bounded rfl word

theorem nvmWorkerNvmTask_bounded (below : task.Below) :
    ∀ deed ∈ nvmWorkerNvmTask task, deed.Bounded P idx := by
  have blocks (i : Nat) (inside : i ∈ List.range task.len) :
      task.offset + i < SCHEDULER_THRESHOLD :=
    Nat.lt_trans (Nat.add_lt_add_left (List.mem_range.1 inside) _) below
  have last (a : Action) (inSegment : a.InSegment P idx)
      (other : ∀ src key block flags, a ≠ .writeToBuffer src key block flags) :
      (Deed.act a).Bounded P idx :=
    ⟨inSegment, fun src key block flags same => absurd same (other src key block flags)⟩
  intro deed member
  unfold nvmWorkerNvmTask at member
  split at member
  · rcases List.mem_append.1 member with copy | count
    · obtain ⟨i, inside, rfl⟩ := List.mem_map.1 copy
      exact blocks i inside
    · rw [List.mem_singleton.1 count]
      exact last _ trivial nofun
  · split at member
    · rcases List.mem_append.1 member with copy | count
      · obtain ⟨i, inside, rfl⟩ := List.mem_map.1 copy
        exact blocks i inside
      · rw [List.mem_singleton.1 count]
        exact last _ trivial nofun
    · cases member

/-- A task's actions stay in its segment, whatever order the other segments are in. -/
theorem nvmWorkerSsdTask_inSegment (ok : Indexed md.perBlockNum (md.segments idx))
    (inRange : InRange task) (stripe : InStripe idx task)
    (done : nvmWorkerSsdTask md task idx = .done md' actions ret) :
    ∀ a ∈ actions, a.InSegment md.perBlockNum idx := by
  -- the task does the same on an index whose segments are all like its own
  let uniform : Metadata := { md with segments := fun _ => md.segments idx }
  have size : uniform.perBlockNum = md.perBlockNum := rfl
  have seg : uniform.segments idx = md.segments idx := rfl
  have alike := nvmWorkerSsdTask_onto size seg task
  rw [done] at alike
  have prepared := nvmWorkerSsdTask_prepared (fun _ => ok) inRange stripe alike
  intro a member
  cases a with
  | postTaskToSsd | addRet | nvmWriteBlockCompleted => trivial
  | readFromBuffer | writeToBuffer | bufferClear =>
      exact prepared.inSegment (.action _)
        (List.mem_flatMap.2 ⟨_, member, List.mem_singleton_self _⟩)

theorem Delivers.no_write {n i src key block flags : Nat} (delivers : Delivers md task idx n i actions) :
    .writeToBuffer src key block flags ∉ actions := by
  induction delivers with
  | done => exact List.not_mem_nil
  | buffer _ _ _ ih | ssd _ _ _ _ ih =>
      intro member
      rcases List.mem_cons.1 member with same | later
      · cases same
      · exact ih later

/-- A write records the block and the opcode of its task. -/
theorem SsdTaskActions.writes {idx : SegIdx} (does : SsdTaskActions md task idx actions)
    {src key block flags : Nat} (member : .writeToBuffer src key block flags ∈ actions) :
    key = task.offset ∧ flags = task.opcode := by
  cases does with
  | read _ delivers =>
      exfalso
      rcases List.mem_append.1 member with loop | last
      · exact delivers.no_write loop
      · cases List.mem_singleton.1 last
  | small =>
      rcases List.mem_pair.1 member with same | same
      · cases same
        exact ⟨rfl, rfl⟩
      · cases same
  | large =>
      simp at member
  | nothing => cases member

theorem nvmWorkerSsdTask_bounded (ok : Indexed md.perBlockNum (md.segments idx))
    (part : Part idx task) (word : task.opcode < 2 ^ 64)
    (done : nvmWorkerSsdTask md task idx = .done md' actions ret) :
    ∀ a ∈ actions, a.Bounded md.perBlockNum idx := by
  have does := nvmWorkerSsdTask_actions part.inRange done
  intro a member
  refine ⟨nvmWorkerSsdTask_inSegment ok part.inRange part.stripe done a member, ?_⟩
  rintro src key block flags rfl
  obtain ⟨rfl, rfl⟩ := does.writes member
  exact ⟨part.inRange.key, word⟩

theorem afterMigration_bounded (md : Metadata) (ok : Indexed md.perBlockNum (md.segments idx))
    (some_block : 0 < md.perBlockNum) (empty : (md.segments idx).hash.entries = [])
    (inRange : InRange task) (word : task.opcode < 2 ^ 64)
    (done : (redirectWriteAfterMigration md task idx).counted = .done md' actions ret) :
    ∀ a ∈ actions, a.Bounded md.perBlockNum idx := by
  have outcome := redirectWriteAfterMigration_empty md ok some_block empty inRange
  cases result : redirectWriteAfterMigration md task idx with
  | full | spins =>
      rw [result] at done
      cases done
  | done md'' before ret' =>
      rw [result] at done outcome
      cases done
      have slot : ∃ v < md.perBlockNum, before = bufferWrite md task idx v := by
        cases outcome with
        | overwrite found => exact ⟨_, (ok.slot_small (ok.find?_eq_some_iff.1 found)).1, rfl⟩
        | enter _ _ first | leak _ _ first =>
            exact ⟨_, Nat.lt_of_lt_of_le first.lt ok.bits_le, rfl⟩
      obtain ⟨v, inside, rfl⟩ := slot
      intro a member
      rcases List.mem_append.1 member with write | count
      · rw [List.mem_singleton.1 write]
        refine ⟨⟨Nat.le_add_right _ _, Nat.add_lt_add_left inside _⟩, ?_⟩
        rintro _ _ _ _ same
        cases same
        exact ⟨inRange.key, word⟩
      · rw [List.mem_singleton.1 count]
        exact ⟨trivial, nofun⟩

/-- The slot a migrate thread has in hand is one of its segment's. -/
theorem Emptying.slot_lt {seg : Segment} {pc : Fin MIGRATE_THREAD_NUM → MigratePc}
    (emptying : Emptying P idx seg pc) {t : Fin MIGRATE_THREAD_NUM} {kv : MixKv}
    (held : kv ∈ (pc t).inflight) : kv.2 < P := by
  obtain ⟨m₀, s, ok, draining, -, rfl⟩ := emptying
  obtain ⟨⟨fin, drained⟩, -⟩ := draining
  exact (ok.slot_small (drained.mem_of_inflight held)).1

end

/-! ## Every step keeps the bounds -/

namespace Pipeline.Bounded

variable {P submitQueueNum : Nat} {s t : Pipeline} {idx : SegIdx}

theorem stations (bounded : s.Bounded P) {station : Station} (here : station.Bounded P idx)
    (j : SegIdx) : (Function.update s.station idx station j).Bounded P j :=
  (Function.forall_update_iff s.station fun j st => st.Bounded P j).2
    ⟨here, fun j _ => bounded.station j⟩ j

theorem front (bounded : s.Bounded P) {turn : Turn} (step : FrontStep submitQueueNum s turn t) :
    t.Bounded P := by
  cases step with
  | @post i request rest next queue =>
      have waiting := bounded.toPost i
      rw [next] at waiting
      obtain ⟨first, rest⟩ := List.forall_mem_cons.1 waiting
      exact
        { bounded with
          toPost := (Function.forall_update_iff s.toPost fun j list => ∀ r ∈ list,
              (r.task j).Bounded).2 ⟨rest, fun j _ => bounded.toPost j⟩
          submitted := (Function.forall_update_iff s.submitQueue fun _ list => ∀ task ∈ list,
              task.Bounded).2
            ⟨List.forall_mem_append.2 ⟨bounded.submitted i, List.forall_mem_singleton.2 first⟩,
              fun j _ => bounded.submitted j⟩ }
  | free | skip => exact { bounded with }
  | schedule hand queue =>
      have waiting := bounded.submitted s.idx
      rw [queue] at waiting
      obtain ⟨first, rest⟩ := List.forall_mem_cons.1 waiting
      exact
        { bounded with
          submitted := (Function.forall_update_iff s.submitQueue fun _ list => ∀ task ∈ list,
              task.Bounded).2 ⟨rest, fun j _ => bounded.submitted j⟩
          hand := doSchedule_bounded first }
  | toNvm hand inside =>
      have posts := bounded.hand
      rw [hand] at posts
      obtain ⟨below, rest⟩ := List.forall_mem_cons.1 posts
      have here := bounded.station ⟨_, inside⟩
      exact
        { bounded with
          hand := rest
          station := bounded.stations { here with
            nvmQueue := List.forall_mem_append.2
              ⟨here.nvmQueue, List.forall_mem_singleton.2 below⟩ } }
  | @toBuffer idx task rest hand =>
      have posts := bounded.hand
      rw [hand] at posts
      obtain ⟨word, rest⟩ := List.forall_mem_cons.1 posts
      have here := bounded.station idx
      exact
        { bounded with
          hand := rest
          station := bounded.stations { here with
            buffer := List.forall_mem_append.2
              ⟨here.buffer, List.forall_mem_singleton.2 word⟩ } }

/-- The task taken is bounded as its type says. -/
theorem takes (bounded : s.Bounded P) (fits : s.Fits) {task : IoTask} {station : Station}
    (takes : Takes (s.station idx) task station) :
    (task.type = NVM_TASK → task.Below) ∧ (task.type = SSD_TASK → task.opcode < 2 ^ 64) ∧
      ∀ {pc : NvmPc}, pc.Bounded P idx → ({ station with nvm := pc } : Station).Bounded P idx := by
  have here := bounded.station idx
  have kinds := fits.station idx
  cases takes with
  | nvm odd queue =>
      obtain ⟨below, rest⟩ := List.forall_mem_cons.1 (queue ▸ here.nvmQueue)
      have type := (List.forall_mem_cons.1 (queue ▸ kinds.nvmQueue)).1
      refine ⟨fun _ => below, fun ssd => ?_, fun pc => ⟨here.buffer, rest, pc⟩⟩
      rw [type] at ssd
      cases ssd
  | buffer even queue =>
      obtain ⟨word, rest⟩ := List.forall_mem_cons.1 (queue ▸ here.buffer)
      have part := (List.forall_mem_cons.1 (queue ▸ kinds.buffer)).1
      refine ⟨fun nvm => ?_, fun _ => word, fun pc => ⟨rest, here.nvmQueue, pc⟩⟩
      rw [part.type] at nvm
      cases nvm

/-- What is left to do is bounded as well. -/
theorem rest (bounded : s.Bounded P) {task : IoTask} {deed : Deed} {rest : List Deed}
    (doing : (s.station idx).nvm = .doing task (deed :: rest)) :
    deed.Bounded P idx ∧ (NvmPc.doing task rest).Bounded P idx := by
  have here := (bounded.station idx).nvm
  rw [doing] at here
  exact List.forall_mem_cons.1 here

theorem nvm (bounded : s.Bounded P) (fits : s.Fits) (indexes : s.Indexes P) (some_block : 0 < P)
    (step : NvmStep s idx t)
    (ends : ∀ task, (s.station idx).nvm = .migrating task →
      ∃ pc, s.migration = some (idx, pc) ∧ ∀ thread, pc thread = .done) : t.Bounded P := by
  have here := bounded.station idx
  have acts {task : IoTask} {actions : List Action} (each : ∀ a ∈ actions, a.Bounded P idx) :
      (NvmPc.doing task (actions.map .act)).Bounded P idx := by
    intro deed member
    obtain ⟨a, inside, rfl⟩ := List.mem_map.1 member
    exact each a inside
  cases step with
  | turn => exact { bounded with station := bounded.stations { here with } }
  | nvmTask _ takes type =>
      obtain ⟨below, -, station⟩ := bounded.takes fits takes
      exact { bounded with
        station := bounded.stations (station (nvmWorkerNvmTask_bounded (below type))) }
  | ssdTask poll takes type result =>
      obtain ⟨-, word, station⟩ := bounded.takes fits takes
      have part := (fits.takes takes).1.resolve_left (by rw [type]; decide)
      have each := nvmWorkerSsdTask_bounded (indexes.own (by rw [poll]; nofun)) part (word type)
        result
      rw [indexes.perBlockNum] at each
      exact { bounded with station := bounded.stations (station (acts each)) }
  | full _ takes type =>
      obtain ⟨-, word, station⟩ := bounded.takes fits takes
      exact { bounded with station := bounded.stations (station (word type)) }
  | noTask _ takes =>
      obtain ⟨-, -, station⟩ := bounded.takes fits takes
      exact { bounded with station := bounded.stations (station nofun) }
  | postSsd doing =>
      exact { bounded with
        station := bounded.stations { here with nvm := (bounded.rest doing).2 } }
  | act _ doing =>
      exact { bounded with
        station := bounded.stations { here with nvm := (bounded.rest doing).2 } }
  | nvmRead doing =>
      exact { bounded with
        station := bounded.stations { here with nvm := (bounded.rest doing).2 } }
  | nvmWrite doing =>
      exact { bounded with
        station := bounded.stations { here with nvm := (bounded.rest doing).2 } }
  | finish => exact { bounded with station := bounded.stations { here with nvm := trivial } }
  | beginMigration full =>
      have word := here.nvm
      rw [full] at word
      exact { bounded with station := bounded.stations { here with nvm := word } }
  | @endMigration task _ _ _ migrating result =>
      obtain ⟨pc, running, all⟩ := ends task migrating
      obtain ⟨ok, empty⟩ := (indexes.emptying idx pc running).ended all
      have size : (migrationEnd s.m idx).md.perBlockNum = P := indexes.perBlockNum
      have word := here.nvm
      rw [migrating] at word
      have each := afterMigration_bounded (migrationEnd s.m idx).md (size ▸ ok)
        (size ▸ some_block) empty (indexes.inRange idx task (.inr migrating)) word result
      rw [size] at each
      exact { bounded with station := bounded.stations { here with nvm := acts each } }

theorem step (bounded : s.Bounded P) (fits : s.Fits) (indexes : s.Indexes P) (some_block : 0 < P)
    {capacity : Nat} {turn : Turn} (stepped : s.step submitQueueNum capacity turn = some t) :
    t.Bounded P := by
  cases step_cases stepped with
  | front step => exact bounded.front step
  | nvm idx is step =>
      subst is
      exact bounded.nvm fits indexes some_block step fun task at_ => indexes.waited at_ stepped
  | ssd idx _ step =>
      have here := bounded.station idx
      cases step with
      | take => exact { bounded with station := bounded.stations { here with } }
      | stage => exact { bounded with station := bounded.stations { here with } }
      | move => exact { bounded with station := bounded.stations { here with } }
      | count => exact { bounded with station := bounded.stations { here with } }
  | migrate thread _ _ _ result => exact result ▸ { bounded with }

theorem start (m : Machine) (region : Nat → Block) {requests : Nat → List Request}
    (regional : ∀ i, ∀ request ∈ requests i, request.Regional)
    (words : ∀ i, ∀ request ∈ requests i, request.Word) :
    (Pipeline.start m region requests).Bounded P where
  toPost := fun i request member => (regional i request member).bounded (words i request member) i
  submitted := fun _ _ member => nomatch member
  hand := fun _ member => nomatch member
  station := fun _ => ⟨nofun, nofun, trivial⟩

/-- The call that a worker makes next. -/
theorem nvm_call (bounded : s.Bounded P) {call : PmemCall} (calls : s.call (.nvm idx) = some call) :
    (∃ task deed rest, (s.station idx).nvm = .doing task (deed :: rest) ∧
      deed.call s.m = some call ∧ deed.Bounded P idx) := by
  unfold Pipeline.call NvmPc.call at calls
  dsimp only at calls
  split at calls
  next task deed rest doing => exact ⟨task, deed, rest, doing, calls, (bounded.rest doing).1⟩
  all_goals cases calls

end Pipeline.Bounded

/-- A bounded deed stays in its region, and in its segment's part of the buffer. -/
theorem Deed.Bounded.call {P : Nat} {idx : SegIdx} {m : Machine} {deed : Deed} {call : PmemCall}
    (bounded : deed.Bounded P idx) (room : SEGMENT_NUM * P ≤ BUFFER_BLOCK_NUM)
    (calls : deed.call m = some call) :
    call.InRegion ∧ ∀ b, call.bufferBlock = some b → idx * P ≤ b ∧ b < idx * P + P := by
  have whole {b : Nat} (inside : idx * P ≤ b ∧ b < idx * P + P) : b < BUFFER_BLOCK_NUM := by
    have last : (idx + 1) * P ≤ SEGMENT_NUM * P := Nat.mul_le_mul_right P idx.isLt
    rw [Nat.succ_mul] at last
    omega
  have below : SCHEDULER_THRESHOLD ≤ NVM_BLOCK_NUM := by decide
  cases deed with
  | nvmRead dst block =>
      cases calls
      exact ⟨Nat.lt_of_lt_of_le bounded below, nofun⟩
  | nvmWrite src block =>
      cases calls
      exact ⟨Nat.lt_of_lt_of_le bounded below, nofun⟩
  | act a =>
      obtain ⟨inside, words⟩ := bounded
      cases a with
      | postTaskToSsd | addRet | nvmWriteBlockCompleted => cases calls
      | readFromBuffer dst block =>
          cases calls
          exact ⟨whole inside, fun b same => Option.some.inj same ▸ inside⟩
      | writeToBuffer src key block flags =>
          cases calls
          obtain ⟨key, flags⟩ := words src key block flags rfl
          exact ⟨⟨key, whole inside, flags⟩, fun b same => Option.some.inj same ▸ inside⟩
      | bufferClear block =>
          cases calls
          exact ⟨whole inside, fun b same => Option.some.inj same ▸ inside⟩

/-- Where the threads may go with their next steps. -/
structure Pipeline.PmemSafe (s : Pipeline) : Prop where
  /-- No call leaves its region. -/
  inRegion : ∀ turn call, s.call turn = some call → call.InRegion
  /-- Two nvm_workers are not at the same buffer block. -/
  apart : ∀ i j, i ≠ j → ∀ call call', s.call (.nvm i) = some call → s.call (.nvm j) = some call' →
    ∀ b, call.bufferBlock = some b → call'.bufferBlock ≠ some b

theorem Pipeline.Bounded.safe {P : Nat} {s : Pipeline} (bounded : s.Bounded P)
    (indexes : s.Indexes P) (room : SEGMENT_NUM * P ≤ BUFFER_BLOCK_NUM) : s.PmemSafe where
  inRegion := by
    intro turn call calls
    cases turn with
    | post | free | scheduler | ssd => cases calls
    | nvm idx =>
        obtain ⟨task, deed, rest, -, calls, bounded⟩ := bounded.nvm_call calls
        exact (bounded.call room calls).1
    | migrate thread =>
        obtain ⟨⟨idx, pc⟩, running, calls⟩ := Option.bind_eq_some_iff.1 calls
        have slot {b : Nat} {kv : MixKv} (held : kv ∈ (pc thread).inflight) :
            kv.2 < BUFFER_BLOCK_NUM := by
          have below := (indexes.emptying idx pc running).slot_lt held
          simp only [SEGMENT_NUM] at room
          omega
        dsimp only at calls
        cases at_ : pc thread with
        | pop | stage | flush | count | done =>
            rw [at_] at calls
            cases calls
        | read b kv | clear b kv =>
            have held : kv ∈ (pc thread).inflight := by
              rw [at_]
              exact List.mem_singleton_self kv
            rw [at_] at calls
            cases calls
            exact slot (b := b) held
  apart := by
    intro i j other call call' calls calls' b here there
    obtain ⟨-, deed, -, -, calls, own⟩ := bounded.nvm_call calls
    obtain ⟨-, deed', -, -, calls', own'⟩ := bounded.nvm_call calls'
    exact segment_blocks_disjoint other ((own.call room calls).2 b here)
      ((own'.call room calls').2 b there)

theorem Pipeline.Bounded.exec {submitQueueNum capacity : Nat} {m : Machine} {region : Nat → Block}
    {requests : Nat → List Request} (all : AllIndexed m.md) (some_block : 0 < m.md.perBlockNum)
    (regional : ∀ i, ∀ request ∈ requests i, request.Regional)
    (words : ∀ i, ∀ request ∈ requests i, request.Word) {turns : List Pipeline.Turn}
    {s : Pipeline}
    (ran : Transition.exec (Pipeline.step submitQueueNum capacity) (.start m region requests) turns =
      some s) :
    s.Fits ∧ s.Indexes m.md.perBlockNum ∧ s.Bounded m.md.perBlockNum := by
  have inside : ∀ i, ∀ request ∈ requests i, request.Inside :=
    fun i request member => (regional i request member).inside
  exact exec_invariant
    (I := fun s => s.Fits ∧ s.Indexes m.md.perBlockNum ∧ s.Bounded m.md.perBlockNum)
    (fun _ _ _ ⟨fits, indexes, bounded⟩ stepped =>
      ⟨fits.step (Pipeline.step_cases stepped), indexes.step fits some_block stepped,
        bounded.step fits indexes some_block stepped⟩)
    ran ⟨start_fits m region inside, .start region requests all, .start m region regional words⟩

/-- **In every run no call leaves its region of the mapping, and two nvm_workers never meet in
the buffer.** -/
theorem pmem_safe {submitQueueNum capacity : Nat} {m : Machine} {region : Nat → Block}
    {requests : Nat → List Request} (all : AllIndexed m.md) (some_block : 0 < m.md.perBlockNum)
    (room : SEGMENT_NUM * m.md.perBlockNum ≤ BUFFER_BLOCK_NUM)
    (regional : ∀ i, ∀ request ∈ requests i, request.Regional)
    (words : ∀ i, ∀ request ∈ requests i, request.Word) {turns : List Pipeline.Turn}
    {s : Pipeline}
    (ran : exec (Pipeline.step submitQueueNum capacity) (.start m region requests) turns = some s) :
    s.PmemSafe := by
  obtain ⟨-, indexes, bounded⟩ := Pipeline.Bounded.exec all some_block regional words ran
  exact bounded.safe indexes room

/-- A write to the NVM and one to the buffer, both about to be made. -/
theorem nvmAndBuffer_pmem_safe : ∃ s, exec (Pipeline.step 1 4)
      (.fresh fun i => if i = 0 then
        [.write 0 1 5 0 0, .write 0 1 (SCHEDULER_THRESHOLD + 4) 0 0] else [])
      [.post 0, .post 0, .scheduler, .scheduler, .scheduler, .scheduler, .nvm 0, .nvm 0, .nvm 1] =
        some s ∧
    (s.call (.nvm 0)).isSome = true ∧ (s.call (.nvm 1)).isSome = true ∧ s.PmemSafe := by
  have runs : ((exec (Pipeline.step 1 4)
      (.fresh fun i => if i = 0 then
        [.write 0 1 5 0 0, .write 0 1 (SCHEDULER_THRESHOLD + 4) 0 0] else [])
      [.post 0, .post 0, .scheduler, .scheduler, .scheduler, .scheduler, .nvm 0, .nvm 0,
        .nvm 1]).map fun s => ((s.call (.nvm 0)).isSome, (s.call (.nvm 1)).isSome)) =
          some (true, true) := by
    decide +kernel
  obtain ⟨s, ran, calls⟩ := Option.map_eq_some_iff.1 runs
  obtain ⟨first, second⟩ := Prod.mk.inj calls
  have regional : ∀ i, ∀ request ∈ (if i = 0 then
      [Request.write 0 1 5 0 0, .write 0 1 (SCHEDULER_THRESHOLD + 4) 0 0] else []),
      request.Regional ∧ request.Word := by
    intro i request member
    split at member
    · rcases List.mem_pair.1 member with rfl | rfl
      · exact ⟨.inl (by decide), Nat.two_pow_pos 64⟩
      · exact ⟨.inr ⟨by decide, by decide⟩, Nat.two_pow_pos 64⟩
    · cases member
  exact ⟨s, ran, first, second, pmem_safe (fun idx => mixMetadataInit_indexed (by decide) idx)
    (by decide) (by decide) (fun i request member => (regional i request member).1)
    (fun i request member => (regional i request member).2) ran⟩

end Mixdk
