/-
# Durability.Pmem -- one image behind three stores

The pipeline keeps the NVM's blocks, the buffer's blocks and their records in stores of their
own.  What the machine has is one mapping of bytes, and functions that copy words into it at
`nvm_addr`, `meta_addr` and `buffer_addr`.  Over the bytes the threads read what the stores
hold, because no call leaves its region (`Durability.Mapping`) and the regions are disjoint;
so a run over the image is a run over the stores, turn for turn (`one_image`).

`mix_nvm_read` and `mix_nvm_write` copy all blocks of a task in one loop.  That is the same as
the block by block of the worker's deeds (`mixNvmRead_blocks`, `mixNvmWrite_blocks`).
-/
import Mixdk.Durability.Mapping

namespace Mixdk

open Transition Words

set_option autoImplicit false

/-! ## The mapping -/

/-- The bytes of the mapping, from `nvm_addr` on. -/
abbrev Image := Nat → UInt8

/-- `nvm_info->nvm_capacity`, which is where `meta_addr` is. -/
def NVM_CAPACITY : Nat := NVM_BLOCK_NUM * BLOCK_SIZE

/-- `buffer_info->buffer_capacity` -/
def BUFFER_CAPACITY : Nat := BUFFER_BLOCK_NUM * (4096 + META_SIZE)

/-- `mix_nvm_read`: `len` blocks from block `offset` on, into the memory at `dst`. -/
def mixNvmRead (image : Image) (mem : Mem) (dst len offset : Nat) : Mem :=
  mixNtstorenx64 mem dst image (offset * BLOCK_SIZE) (len * BLOCK_SIZE)

/-- `mix_nvm_write`: `len` blocks from the memory at `src`, to block `offset` and on. -/
def mixNvmWrite (image : Image) (mem : Mem) (src len offset : Nat) : Image :=
  mixNtstorenx64 image (offset * BLOCK_SIZE) mem src (len * BLOCK_SIZE)

/-- `mix_buffer_read` into the memory at `dst`. -/
def pmemBufferRead (image : Image) (mem : Mem) (dst dstBlock : Nat) : Mem :=
  mixNtstorenx64 mem dst image (NVM_CAPACITY + BUFFER_ADDR + dstBlock * BLOCK_SIZE) BLOCK_SIZE

/-- `mix_buffer_write`. -/
def pmemBufferWrite (image : Image) (src : Block) (srcBlock dstBlock flags : Nat) : Image :=
  let bufferMeta : BufferMeta := { flags := flags, status := 1, timestamp := 0, offset := srcBlock }
  let image := mixNtstorenx64 image (NVM_CAPACITY + BUFFER_ADDR + dstBlock * BLOCK_SIZE)
    (blockBytes src) 0 BLOCK_SIZE
  mixNtstorenx64 image (NVM_CAPACITY + META_SIZE * dstBlock) (metaBytes bufferMeta) 0 META_SIZE

/-- `mix_buffer_clear`. -/
def pmemBufferClear (image : Image) (dstBlock : Nat) : Image :=
  mixNtstorenx32 image (NVM_CAPACITY + dstBlock * META_SIZE) (storeWord (fun _ => 0) 0 8 0) 0 8

/-- The blocks at `nvm_addr`. -/
def regionOf (image : Image) : Nat → Block := fun b j => image (b * BLOCK_SIZE + j)

/-- The bytes from `meta_addr` on. -/
def Image.behind (image : Image) : Nat → UInt8 := fun x => image (NVM_CAPACITY + x)

/-- The records at `meta_addr` and the blocks at `buffer_addr`. -/
def bufferOf (image : Image) : NvmBuffer := nvmOfBytes image.behind

/-- What a call leaves in the mapping. -/
def PmemCall.onImage (image : Image) : PmemCall → Image
  | .nvmRead _ | .bufferRead _ => image
  | .nvmWrite src block => mixNtstorenx64 image (block * BLOCK_SIZE) (blockBytes src) 0 BLOCK_SIZE
  | .buffer (.write src key block flags) => pmemBufferWrite image src key block flags
  | .buffer (.clear block) => pmemBufferClear image block

section

variable {image : Image} {mem : Mem} {src : Block} {b block dst d key flags len offset : Nat}

/-! ## Copies of blocks -/

theorem block_dvd (len : Nat) : 8 ∣ len * BLOCK_SIZE := Dvd.dvd.mul_left (by decide) len

/-- **A read of the region delivers its blocks.** -/
theorem mixNvmRead_eq (image : Image) (mem : Mem) (dst len offset : Nat) :
    mixNvmRead image mem dst len offset =
      mem.storeBlocks dst len fun j => regionOf image (offset + j) := by
  funext a
  rw [mixNvmRead, ntstorenx64_apply _ _ _ _ (block_dvd len), Mem.storeBlocks]
  split
  next inside =>
    have place : offset * BLOCK_SIZE + (a - dst) =
        (offset + (a - dst) / BLOCK_SIZE) * BLOCK_SIZE + (a - dst) % BLOCK_SIZE := by
      rw [Nat.add_mul, Nat.add_assoc, Nat.mul_comm ((a - dst) / BLOCK_SIZE), Nat.div_add_mod]
    rw [place]
    rfl
  next => rfl

/-- A read of the buffer delivers its block. -/
theorem pmemBufferRead_eq (image : Image) (mem : Mem) (dst dstBlock : Nat) :
    pmemBufferRead image mem dst dstBlock =
      mem.storeBlocks dst 1 fun _ => mixBufferRead (bufferOf image) dstBlock := by
  funext a
  rw [pmemBufferRead, ntstorenx64_apply _ _ _ _ (by decide), Mem.storeBlocks, Nat.one_mul]
  split
  next inside =>
    have small : a - dst < BLOCK_SIZE := by omega
    simp only [Nat.mod_eq_of_lt small, mixBufferRead, bufferOf, nvmOfBytes, Image.behind]
    congr 1
    omega
  next => rfl

/-- **The loop of `mix_nvm_read` is a read of block after block.** -/
theorem mixNvmRead_blocks (image : Image) (mem : Mem) (dst len offset : Nat) :
    mixNvmRead image mem dst len offset =
      (List.range len).foldl (fun mem i =>
        mem.storeBlocks (dst + i * BLOCK_SIZE) 1 fun _ => regionOf image (offset + i)) mem := by
  rw [mixNvmRead_eq]
  induction len with
  | zero =>
      funext a
      rw [Mem.storeBlocks, if_neg (by omega)]
      rfl
  | succ len ih =>
      rw [List.range_succ, List.foldl_append, ← ih, Mem.storeBlocks_succ]
      rfl

/-- **The loop of `mix_nvm_write` is a write of block after block.** -/
theorem mixNvmWrite_blocks (image : Image) (mem : Mem) (src len offset : Nat) :
    mixNvmWrite image mem src len offset =
      (List.range len).foldl (fun image i =>
        PmemCall.onImage image (.nvmWrite (mem.load (src + i * BLOCK_SIZE)) (offset + i))) image := by
  induction len with
  | zero =>
      funext a
      rw [mixNvmWrite, ntstorenx64_apply _ _ _ _ (block_dvd 0), if_neg (by omega)]
      rfl
  | succ len ih =>
      have words : (len + 1) * BLOCK_SIZE = len * BLOCK_SIZE + BLOCK_SIZE :=
        Nat.succ_mul len BLOCK_SIZE
      have place : (offset + len) * BLOCK_SIZE = offset * BLOCK_SIZE + len * BLOCK_SIZE :=
        Nat.add_mul offset len BLOCK_SIZE
      rw [List.range_succ, List.foldl_append, ← ih]
      funext a
      simp only [List.foldl_cons, List.foldl_nil, PmemCall.onImage, mixNvmWrite]
      rw [ntstorenx64_apply _ _ _ _ (block_dvd _), ntstorenx64_apply _ _ _ _ (by decide),
        ntstorenx64_apply _ _ _ _ (block_dvd _)]
      by_cases last : (offset + len) * BLOCK_SIZE ≤ a ∧ a < (offset + len) * BLOCK_SIZE + BLOCK_SIZE
      · have small : 0 + (a - (offset + len) * BLOCK_SIZE) < BLOCK_SIZE := by omega
        rw [if_pos last, if_pos (by omega), blockBytes, dif_pos small, Mem.load]
        congr 1
        dsimp only
        omega
      · rw [if_neg last]
        by_cases before : offset * BLOCK_SIZE ≤ a ∧ a < offset * BLOCK_SIZE + len * BLOCK_SIZE
        · rw [if_pos before, if_pos (by omega)]
        · rw [if_neg before, if_neg (by omega)]

/-! ## The regions -/

/-- The region a block belongs to ends before `meta_addr`. -/
theorem region_end (inside : b < NVM_BLOCK_NUM) : b * BLOCK_SIZE + BLOCK_SIZE ≤ NVM_CAPACITY := by
  have last := Nat.mul_le_mul_right BLOCK_SIZE (Nat.succ_le_of_lt inside)
  rwa [Nat.succ_mul] at last

/-- Copies behind `meta_addr`, seen from there. -/
theorem behind_ntstorenx64 (image : Image) (d : Nat) (src : Nat → UInt8) (s : Nat)
    (whole : 8 ∣ len) : Image.behind (mixNtstorenx64 image (NVM_CAPACITY + d) src s len) =
      mixNtstorenx64 image.behind d src s len := by
  funext x
  rw [Image.behind, ntstorenx64_apply _ _ _ _ whole, ntstorenx64_apply _ _ _ _ whole,
    Nat.add_sub_add_left, Image.behind]
  split
  · rw [if_pos (by omega)]
  · rw [if_neg (by omega)]

theorem behind_ntstorenx32 (image : Image) (d : Nat) (src : Nat → UInt8) (s : Nat)
    (whole : 4 ∣ len) : Image.behind (mixNtstorenx32 image (NVM_CAPACITY + d) src s len) =
      mixNtstorenx32 image.behind d src s len := by
  funext x
  rw [Image.behind, ntstorenx32_apply _ _ _ _ whole, ntstorenx32_apply _ _ _ _ whole,
    Nat.add_sub_add_left, Image.behind]
  split
  · rw [if_pos (by omega)]
  · rw [if_neg (by omega)]

theorem behind_pmemBufferWrite (image : Image) (src : Block) (srcBlock dstBlock flags : Nat) :
    (pmemBufferWrite image src srcBlock dstBlock flags).behind =
      nvmBufferWrite image.behind src srcBlock dstBlock flags := by
  simp only [pmemBufferWrite, nvmBufferWrite]
  rw [behind_ntstorenx64 _ _ _ _ (by decide), Nat.add_assoc,
    behind_ntstorenx64 _ _ _ _ (by decide)]

theorem behind_pmemBufferClear (image : Image) (dstBlock : Nat) :
    (pmemBufferClear image dstBlock).behind = nvmBufferClear image.behind dstBlock :=
  behind_ntstorenx32 _ _ _ _ (by decide)

/-- Nothing behind `meta_addr` reaches the blocks at `nvm_addr`. -/
theorem regionOf_congr {image' : Image} (same : ∀ x < NVM_CAPACITY, image' x = image x)
    (inside : b < NVM_BLOCK_NUM) : regionOf image' b = regionOf image b := by
  have ends := region_end inside
  funext j
  have small := j.isLt
  exact same _ (by omega)

theorem regionOf_bufferCall (call : BufferCall) (inside : b < NVM_BLOCK_NUM) :
    regionOf (PmemCall.onImage image (.buffer call)) b = regionOf image b := by
  refine regionOf_congr (fun x before => ?_) inside
  cases call with
  | write src key block flags =>
      simp only [PmemCall.onImage, pmemBufferWrite]
      rw [ntstorenx64_apply _ _ _ _ (by decide), if_neg (by omega),
        ntstorenx64_apply _ _ _ _ (by decide), if_neg (by omega)]
  | clear block =>
      simp only [PmemCall.onImage, pmemBufferClear]
      rw [ntstorenx32_apply _ _ _ _ (by decide), if_neg (by omega)]

/-- A write of the region changes its block. -/
theorem regionOf_nvmWrite (image : Image) (src : Block) (block b : Nat) :
    regionOf (PmemCall.onImage image (.nvmWrite src block)) b =
      Function.update (regionOf image) block src b := by
  funext j
  have small := j.isLt
  simp only [regionOf, PmemCall.onImage]
  rw [ntstorenx64_apply _ _ _ _ (by decide)]
  by_cases here : b = block
  · rw [here, Function.update_self, if_pos ⟨by omega, by omega⟩, Nat.zero_add,
      Nat.add_sub_cancel_left, blockBytes, dif_pos small]
  · rw [Function.update_of_ne here, if_neg ?_]
    · rfl
    · simp only [BLOCK_SIZE] at small ⊢
      omega

/-- And nothing behind `meta_addr`. -/
theorem behind_nvmWrite (image : Image) (src : Block) (inside : block < NVM_BLOCK_NUM) :
    (PmemCall.onImage image (.nvmWrite src block)).behind = image.behind := by
  have ends := region_end inside
  funext x
  rw [Image.behind, PmemCall.onImage, ntstorenx64_apply _ _ _ _ (by decide), if_neg (by omega),
    Image.behind]

end

/-! ## Steps over other stores -/

/-- The pipeline with other stores behind it. -/
def Pipeline.withStores (s : Pipeline) (region : Nat → Block) (nvm : NvmBuffer) : Pipeline :=
  { s with region := region, m := { s.m with nvm := nvm } }

/-- What a call leaves of the blocks at `nvm_addr`. -/
def PmemCall.onRegion (region : Nat → Block) : PmemCall → Nat → Block
  | .nvmWrite src block => Function.update region block src
  | .nvmRead _ | .bufferRead _ | .buffer _ => region

/-- What a call leaves of the buffer. -/
def PmemCall.onBuffer (n : NvmBuffer) : PmemCall → NvmBuffer
  | .buffer (.write src key block flags) => mixBufferWrite n src key block flags
  | .buffer (.clear block) => mixBufferClear n block
  | .nvmRead _ | .nvmWrite _ _ | .bufferRead _ => n

/-- What the call reads is the same here and there. -/
def PmemCall.Reads (region region' : Nat → Block) (n n' : NvmBuffer) : PmemCall → Prop
  | .nvmRead block => region' block = region block
  | .bufferRead block => n'.data block = n.data block
  | .nvmWrite _ _ | .buffer _ => True

section

variable {submitQueueNum capacity : Nat} {s t : Pipeline} {region : Nat → Block} {n : NvmBuffer}
  {idx : SegIdx}

theorem Pipeline.over_post (s : Pipeline) (region : Nat → Block) (n : NvmBuffer) (i : Nat) :
    (s.withStores region n).postStep submitQueueNum capacity i =
      (s.postStep submitQueueNum capacity i).map (·.withStores region n) := by
  unfold postStep
  cases next : s.toPost i with
  | nil => simp only [withStores, next, Option.map_none]
  | cons request rest =>
      by_cases room : i < submitQueueNum ∧ (s.submitQueue i).length < capacity
      · simp only [withStores, next, if_pos room, Option.map_some]
        exact if_pos room
      · simp only [withStores, next, if_neg room, Option.map_none]
        exact if_neg room

theorem Pipeline.over_free (s : Pipeline) (region : Nat → Block) (n : NvmBuffer) (i : Nat)
    (request : Request) :
    (s.withStores region n).freeStep i request =
      (s.freeStep i request).map (·.withStores region n) := by
  cases request with
  | write => rfl
  | read dst len offset flags ret type =>
      by_cases completed : .read dst len offset flags ret type ∈ s.history.posted i ∧
          len ≤ s.m.ret ret ∧ ret ∉ s.history.released
      · simp only [freeStep, withStores, if_pos completed, Option.map_some]
        exact if_pos completed
      · simp only [freeStep, withStores, if_neg completed, Option.map_none]
        exact if_neg completed

theorem Pipeline.over_scheduler (s : Pipeline) (region : Nat → Block) (n : NvmBuffer) :
    (s.withStores region n).schedulerStep submitQueueNum capacity =
      (s.schedulerStep submitQueueNum capacity).map (·.withStores region n) := by
  unfold schedulerStep
  cases hand : s.hand with
  | nil => cases queue : s.submitQueue s.idx <;> simp only [withStores, hand, queue, Option.map_some]
  | cons post rest =>
      cases post with
      | nvm task =>
          by_cases inside : task.queueIdx < SEGMENT_NUM
          · by_cases room : (s.station ⟨task.queueIdx, inside⟩).nvmQueue.length < capacity
            · simp only [withStores, hand, dif_pos inside, if_pos room, Option.map_some]
            · simp only [withStores, hand, dif_pos inside, if_neg room, Option.map_none]
          · simp only [withStores, hand, dif_neg inside, Option.map_none]
      | buffer idx task =>
          by_cases room : (s.station idx).bufferQueue.length < capacity
          · simp only [withStores, hand, if_pos room, Option.map_some]
          · simp only [withStores, hand, if_neg room, Option.map_none]

theorem Pipeline.over_resume (station : Station) (task : IoTask) (result : WriteResult) :
    (s.withStores region n).resume idx station task result =
      (s.resume idx station task result).map (·.withStores region n) := by
  cases result <;> rfl

theorem Pipeline.over_begin (station : Station) (task : IoTask) :
    (s.withStores region n).begin idx station task =
      (s.begin idx station task).map (·.withStores region n) := by
  unfold begin
  split
  · rfl
  · split
    · exact over_resume ..
    · rfl

theorem Pipeline.over_poll (s : Pipeline) (region : Nat → Block) (n : NvmBuffer) (idx : SegIdx) :
    (s.withStores region n).pollStep idx = (s.pollStep idx).map (·.withStores region n) := by
  have station : (s.withStores region n).station = s.station := rfl
  unfold pollStep
  rw [station]
  dsimp only
  split
  · split
    · rfl
    · exact over_begin ..
  · split
    · rfl
    · exact over_begin ..

theorem Pipeline.over_ssd (s : Pipeline) (region : Nat → Block) (n : NvmBuffer) (idx : SegIdx) :
    (s.withStores region n).ssdStep idx = (s.ssdStep idx).map (·.withStores region n) := by
  have station : (s.withStores region n).station = s.station := rfl
  unfold ssdStep
  rw [station]
  dsimp only
  cases (s.station idx).ssd with
  | poll => cases (s.station idx).ssdQueue <;> rfl
  | execute task =>
      have stage : (s.withStores region n).m.ssdTaskStage idx task =
          { s.m.ssdTaskStage idx task with nvm := n } := by
        unfold Machine.ssdTaskStage
        dsimp only
        split
        · rfl
        · split <;> rfl
      dsimp only
      rw [stage]
      rfl
  | staged task =>
      have move : (s.withStores region n).m.ssdTaskMove idx task =
          { s.m.ssdTaskMove idx task with nvm := n } := by
        unfold Machine.ssdTaskMove
        dsimp only
        split
        · rfl
        · split <;> rfl
      dsimp only
      rw [move]
      rfl
  | moved task =>
      have count : (s.withStores region n).m.ssdTaskCount task =
          { s.m.ssdTaskCount task with nvm := n } := by
        unfold Machine.ssdTaskCount
        dsimp only
        split
        · rfl
        · split <;> rfl
      dsimp only
      rw [count]
      rfl

/-- What the stores are after a call, if there is one. -/
def afterCall (call : Option PmemCall) (s : Pipeline) (region : Nat → Block) (n : NvmBuffer) :
    Pipeline :=
  s.withStores (call.elim region (·.onRegion region)) (call.elim n (·.onBuffer n))

theorem Pipeline.over_perform (station : Station) (task : IoTask) (deed : Deed)
    (reads : ∀ call, deed.call s.m = some call → call.Reads s.region region s.m.nvm n) :
    (s.withStores region n).perform capacity idx station task deed =
      (s.perform capacity idx station task deed).map (afterCall (deed.call s.m) · region n) := by
  cases deed with
  | nvmRead dst block =>
      have same : region block = s.region block := reads _ rfl
      simp only [perform, withStores, Option.map_some, same]
      rfl
  | nvmWrite src block => rfl
  | act a =>
      cases a with
      | postTaskToSsd posted =>
          by_cases room : station.ssdQueue.length < capacity
          · simp only [perform, if_pos room, Option.map_some]
            rfl
          · simp only [perform, if_neg room, Option.map_none]
      | readFromBuffer dst block =>
          have same : n.data block = s.m.nvm.data block := reads _ rfl
          simp only [perform, Machine.perform, withStores, mixBufferRead, Option.map_some, same]
          rfl
      | writeToBuffer | bufferClear | addRet | nvmWriteBlockCompleted => rfl

theorem Pipeline.over_beginMigration (s : Pipeline) (region : Nat → Block) (n : NvmBuffer)
    (idx : SegIdx) (task : IoTask) :
    (s.withStores region n).beginMigration idx task =
      (s.beginMigration idx task).map (·.withStores region n) := by
  have running : (s.withStores region n).migration = s.migration := rfl
  unfold beginMigration
  rw [running]
  by_cases free : s.migration = none
  · rw [if_pos free, if_pos free]
    rfl
  · rw [if_neg free, if_neg free]
    rfl

theorem Pipeline.over_endMigration (s : Pipeline) (region : Nat → Block) (n : NvmBuffer)
    (idx : SegIdx) (task : IoTask) :
    (s.withStores region n).endMigration idx task =
      (s.endMigration idx task).map (·.withStores region n) := by
  have running : (s.withStores region n).migration = s.migration := rfl
  unfold endMigration
  rw [running]
  cases s.migration with
  | none => rfl
  | some there =>
      obtain ⟨i, pc⟩ := there
      simp only [Option.bind_some]
      by_cases ends : ∀ t, pc t = .done
      · rw [if_pos ends, if_pos ends]
        exact over_resume (s := { s with m := migrationEnd s.m idx, migration := none }) ..
      · rw [if_neg ends, if_neg ends]
        rfl

theorem Pipeline.over_nvm (reads : ∀ call, s.call (.nvm idx) = some call →
      call.Reads s.region region s.m.nvm n) :
    (s.withStores region n).nvmStep capacity idx =
      (s.nvmStep capacity idx).map (afterCall (s.call (.nvm idx)) · region n) := by
  have station : (s.withStores region n).station = s.station := rfl
  unfold nvmStep call at *
  dsimp only at *
  rw [station]
  cases at_ : (s.station idx).nvm with
  | poll => exact over_poll s region n idx
  | doing task deeds =>
      cases deeds with
      | nil => rfl
      | cons deed rest =>
          rw [at_] at reads
          exact over_perform _ task deed reads
  | full task => exact over_beginMigration s region n idx task
  | migrating task => exact over_endMigration s region n idx task

theorem migrateAction_over {T : Nat} (idx : SegIdx) (t : Fin T) {m : Machine} {p : MigratePc}
    (region region' : Nat → Block) (reads : ∀ call, p.call = some call → call.Reads region region' m.nvm n) :
    migrateAction idx t { m with nvm := n } p =
      (migrateAction idx t m p).map fun next =>
        ({ next.1 with nvm := p.call.elim n (·.onBuffer n) }, next.2) := by
  cases p with
  | pop b =>
      have same : ({ m with nvm := n } : Machine).segment idx = m.segment idx := rfl
      simp only [migrateAction, same]
      by_cases inside : b < (m.segment idx).hash.hashSize
      · rw [if_pos inside, if_pos inside, Option.map_map]
        congr 1
        refine funext fun next => ?_
        obtain ⟨kv, hash⟩ := next
        dsimp only [Function.comp_apply]
        split <;> rfl
      · rw [if_neg inside, if_neg inside]
        rfl
  | read b kv =>
      have same : n.data kv.2 = m.nvm.data kv.2 := reads _ rfl
      simp only [migrateAction, mixBufferRead, Option.map_some, same]
      rfl
  | stage | flush | clear | count | done => rfl

theorem Pipeline.over_migrate {t : Fin MIGRATE_THREAD_NUM}
    (reads : ∀ call, s.call (.migrate t) = some call → call.Reads s.region region s.m.nvm n) :
    (s.withStores region n).migrateStep t =
      (s.migrateStep t).map (afterCall (s.call (.migrate t)) · region n) := by
  have running : (s.withStores region n).migration = s.migration := rfl
  unfold migrateStep
  rw [running]
  cases at_ : s.migration with
  | none => rfl
  | some there =>
      obtain ⟨i, pc⟩ := there
      have calls : s.call (.migrate t) = (pc t).call := by
        rw [call, at_]
        rfl
      rw [calls] at reads ⊢
      have moved := migrateAction_over i t s.region region reads
      simp only [Option.bind_some, Mixdk.migrateStep, Option.map_map]
      rw [show (s.withStores region n).m = { s.m with nvm := n } from rfl, moved, Option.map_map]
      congr 1
      refine funext fun next => ?_
      obtain ⟨m', p'⟩ := next
      have kept : ∀ call, (pc t).call = some call → call.onRegion region = region := by
        intro call calls
        cases at_ : pc t with
        | pop | stage | flush | count | done =>
            rw [at_] at calls
            cases calls
        | read | clear =>
            rw [at_] at calls
            cases calls
            rfl
      have same : (pc t).call.elim region (·.onRegion region) = region := by
        cases at_ : (pc t).call with
        | none => rfl
        | some call => exact kept call at_
      simp only [Function.comp_apply, afterCall, withStores, same]

/-- **A step over other stores, if it reads the same there, is the same step**; and its call does
to those stores what it does to these. -/
theorem Pipeline.step_over {turn : Turn} (reads : ∀ call, s.call turn = some call →
      call.Reads s.region region s.m.nvm n) :
    (s.withStores region n).step submitQueueNum capacity turn =
      (s.step submitQueueNum capacity turn).map (afterCall (s.call turn) · region n) := by
  cases turn with
  | post i => exact over_post s region n i
  | free i request => exact over_free s region n i request
  | scheduler => exact over_scheduler s region n
  | nvm idx => exact over_nvm reads
  | ssd idx => exact over_ssd s region n idx
  | migrate t => exact over_migrate reads

theorem Pipeline.step_stores {turn : Turn} (stepped : s.step submitQueueNum capacity turn = some t) :
    t.region = (s.call turn).elim s.region (·.onRegion s.region) ∧
      t.m.nvm = (s.call turn).elim s.m.nvm (·.onBuffer s.m.nvm) := by
  have reads : ∀ call, s.call turn = some call → call.Reads s.region s.region s.m.nvm s.m.nvm := by
    intro call _
    cases call <;> first | rfl | trivial
  have moved : _ = (s.step submitQueueNum capacity turn).map _ := step_over reads
  rw [show s.withStores s.region s.m.nvm = s from rfl, stepped, Option.map_some,
    Option.some.injEq] at moved
  exact ⟨congrArg Pipeline.region moved, congrArg (fun s => s.m.nvm) moved⟩

end

/-! ## Runs over the image -/

/-- The pipeline with the mapping behind it. -/
def Pipeline.over (s : Pipeline) (image : Image) : Pipeline :=
  s.withStores (regionOf image) (bufferOf image)

/-- What a turn leaves in the mapping. -/
def Pipeline.leaves (s : Pipeline) (image : Image) (turn : Pipeline.Turn) : Image :=
  (s.call turn).elim image (PmemCall.onImage image)

/-- A turn over the mapping: a thread reads what the bytes hold, and changes the bytes. -/
def imageStep (submitQueueNum capacity : Nat) (x : Pipeline × Image) (turn : Pipeline.Turn) :
    Option (Pipeline × Image) :=
  ((x.1.over x.2).step submitQueueNum capacity turn).map fun t =>
    (t.over (x.1.leaves x.2 turn), x.1.leaves x.2 turn)

/-- The mapping holds what the stores hold. -/
structure Shows (image : Image) (s : Pipeline) : Prop where
  region : ∀ b < NVM_BLOCK_NUM, regionOf image b = s.region b
  buffer : SameBuffer s.m.nvm (bufferOf image)

section

variable {submitQueueNum capacity : Nat} {s t : Pipeline} {image : Image} {turn : Pipeline.Turn}

/-- What a thread calls does not depend on the stores. -/
theorem Pipeline.call_over (s : Pipeline) (image : Image) (turn : Turn) :
    (s.over image).call turn = s.call turn := by
  have deeds (deed : Deed) : deed.call (s.over image).m = deed.call s.m := by
    cases deed with
    | act a => cases a <;> rfl
    | nvmRead | nvmWrite => rfl
  cases turn with
  | nvm idx =>
      have station : (s.over image).station = s.station := rfl
      simp only [call, station]
      cases (s.station idx).nvm with
      | doing task list =>
          cases list with
          | nil => rfl
          | cons deed rest => exact deeds deed
      | poll | full | migrating => rfl
  | post | free | scheduler | ssd | migrate => rfl

theorem SameBuffer.trans {n n' n'' : NvmBuffer} (first : SameBuffer n n') (second : SameBuffer n' n'') :
    SameBuffer n n'' where
  data := second.data.trans first.data
  metas := fun b here => (second.metas b here).trans (first.metas b here)

/-- A buffer call keeps two buffers the same. -/
theorem SameBuffer.call {n n' : NvmBuffer} (same : SameBuffer n n') (call : BufferCall) :
    SameBuffer ((PmemCall.buffer call).onBuffer n) ((PmemCall.buffer call).onBuffer n') := by
  cases call with
  | write src key block flags =>
      refine ⟨?_, fun b here => ?_⟩
      · simp only [PmemCall.onBuffer, mixBufferWrite, same.data]
      · simp only [PmemCall.onBuffer, mixBufferWrite, Function.update_apply, same.metas b here]
  | clear block =>
      refine ⟨same.data, fun b here => ?_⟩
      simp only [PmemCall.onBuffer, mixBufferClear, Function.update_apply, same.metas b here]
      split
      next at_ => rw [← at_, same.metas b here]
      next => rfl

/-- **A call in its region does to the bytes what it does to the stores.** -/
theorem Shows.call (shows : Shows image s) {call : PmemCall} (inRegion : call.InRegion)
    (region : t.region = call.onRegion s.region) (nvm : t.m.nvm = call.onBuffer s.m.nvm) :
    Shows (call.onImage image) t := by
  cases call with
  | nvmRead | bufferRead => exact ⟨region ▸ shows.region, nvm ▸ shows.buffer⟩
  | nvmWrite src block =>
      refine ⟨fun b inside => ?_, ?_⟩
      · rw [regionOf_nvmWrite, region, PmemCall.onRegion, Function.update_apply,
          Function.update_apply, shows.region b inside]
      · rw [nvm, bufferOf, behind_nvmWrite image src inRegion]
        exact shows.buffer
  | buffer call =>
      refine ⟨fun b inside => ?_, ?_⟩
      · rw [regionOf_bufferCall call inside, region]
        exact shows.region b inside
      · rw [nvm]
        refine (shows.buffer.call call).trans ?_
        cases call with
        | write src key block flags =>
            obtain ⟨word, there, word'⟩ := inRegion
            have small : key < 2 ^ 64 := Nat.lt_of_lt_of_le word (by decide)
            rw [bufferOf, bufferOf, PmemCall.onImage, behind_pmemBufferWrite]
            exact nvmOfBytes_write image.behind src there small word'
        | clear block =>
            rw [bufferOf, bufferOf, PmemCall.onImage, behind_pmemBufferClear]
            exact nvmOfBytes_clear image.behind inRegion

/-- No call in its region changes a byte behind the mapping. -/
theorem PmemCall.InRegion.within {call : PmemCall} (inRegion : call.InRegion) (image : Image) {x : Nat}
    (behind : NVM_CAPACITY + BUFFER_CAPACITY ≤ x) : call.onImage image x = image x := by
  have buffers : BUFFER_CAPACITY = BUFFER_ADDR + BUFFER_BLOCK_NUM * BLOCK_SIZE := by decide
  have blocks {b : Nat} (there : b < BUFFER_BLOCK_NUM) :
      b * BLOCK_SIZE + BLOCK_SIZE ≤ BUFFER_BLOCK_NUM * BLOCK_SIZE := by
    have last := Nat.mul_le_mul_right BLOCK_SIZE (Nat.succ_le_of_lt there)
    rwa [Nat.succ_mul] at last
  cases call with
  | nvmRead | bufferRead => rfl
  | nvmWrite src block =>
      have ends := region_end inRegion
      rw [onImage, ntstorenx64_apply _ _ _ _ (by decide), if_neg (by omega)]
  | buffer call =>
      cases call with
      | write src key block flags =>
          have there : block < BUFFER_BLOCK_NUM := inRegion.2.1
          have record := meta_before_data there
          have data := blocks there
          simp only [onImage, pmemBufferWrite]
          rw [ntstorenx64_apply _ _ _ _ (by decide), if_neg (by omega),
            ntstorenx64_apply _ _ _ _ (by decide), if_neg (by omega)]
      | clear block =>
          have record := meta_before_data inRegion
          have long : 8 ≤ META_SIZE := by decide
          simp only [onImage, pmemBufferClear]
          rw [ntstorenx32_apply _ _ _ _ (by decide), Nat.mul_comm block META_SIZE,
            if_neg (by omega)]

/-- **A turn over the bytes is the turn over the stores.** -/
theorem imageStep_over (shows : Shows image s)
    (inRegion : ∀ call, s.call turn = some call → call.InRegion) :
    imageStep submitQueueNum capacity (s.over image, image) turn =
        (s.step submitQueueNum capacity turn).map fun t =>
          (t.over (s.leaves image turn), s.leaves image turn) := by
  have reads : ∀ call, s.call turn = some call →
      call.Reads s.region (regionOf image) s.m.nvm (bufferOf image) := by
    intro call calls
    have inside := inRegion call calls
    cases call with
    | nvmRead block => exact shows.region block inside
    | bufferRead block => exact congrFun shows.buffer.data block
    | nvmWrite | buffer => trivial
  have same : (s.over image).over image = s.withStores (regionOf image) (bufferOf image) := rfl
  have leaves : (s.over image).leaves image turn = s.leaves image turn := by
    rw [Pipeline.leaves, Pipeline.call_over, Pipeline.leaves]
  rw [imageStep, same, Pipeline.step_over reads, Option.map_map, leaves]
  rfl

theorem Shows.step (shows : Shows image s)
    (inRegion : ∀ call, s.call turn = some call → call.InRegion)
    (stepped : s.step submitQueueNum capacity turn = some t) : Shows (s.leaves image turn) t := by
  obtain ⟨region, nvm⟩ := Pipeline.step_stores stepped
  rw [Pipeline.leaves]
  cases calls : s.call turn with
  | none =>
      rw [calls] at region nvm
      exact ⟨fun b inside => by rw [region]; exact shows.region b inside, by rw [nvm]; exact shows.buffer⟩
  | some call =>
      rw [calls] at region nvm
      exact shows.call (inRegion call calls) region nvm

end

/-- **One image behind the stores: the threads over the bytes of the mapping take the steps they
take over the stores, in every run; the bytes always hold what the stores hold, and no byte behind
the mapping changes.** -/
theorem one_image {submitQueueNum capacity : Nat} {m : Machine} {region : Nat → Block}
    {requests : Nat → List Request} (all : AllIndexed m.md) (some_block : 0 < m.md.perBlockNum)
    (room : SEGMENT_NUM * m.md.perBlockNum ≤ BUFFER_BLOCK_NUM)
    (regional : ∀ i, ∀ request ∈ requests i, request.Regional)
    (words : ∀ i, ∀ request ∈ requests i, request.Word) {image : Image}
    (shows : Shows image (.start m region requests)) (turns : List Pipeline.Turn) :
    Option.Rel (fun s x => x.1 = s.over x.2 ∧ Shows x.2 s ∧
        ∀ b, NVM_CAPACITY + BUFFER_CAPACITY ≤ b → x.2 b = image b)
      (exec (Pipeline.step submitQueueNum capacity) (.start m region requests) turns)
      (exec (imageStep submitQueueNum capacity)
        ((Pipeline.start m region requests).over image, image) turns) := by
  have inside : ∀ i, ∀ request ∈ requests i, request.Inside :=
    fun i request member => (regional i request member).inside
  let R (s : Pipeline) (x : Pipeline × Image) : Prop :=
    (x.1 = s.over x.2 ∧ Shows x.2 s ∧
        ∀ b, NVM_CAPACITY + BUFFER_CAPACITY ≤ b → x.2 b = image b) ∧
      s.Fits ∧ s.Indexes m.md.perBlockNum ∧ s.Bounded m.md.perBlockNum
  have follows : ∀ s x turn, R s x → Option.Rel R (s.step submitQueueNum capacity turn)
      (imageStep submitQueueNum capacity x turn) := by
    rintro s ⟨s', now⟩ turn ⟨⟨same, shows, behind⟩, fits, indexes, bounded⟩
    obtain rfl : s' = s.over now := same
    have inRegion := (bounded.safe indexes room).inRegion turn
    rw [imageStep_over shows inRegion]
    cases stepped : s.step submitQueueNum capacity turn with
    | none => exact .none
    | some t =>
        have kept : ∀ b, NVM_CAPACITY + BUFFER_CAPACITY ≤ b → s.leaves now turn b = image b := by
          intro b outside
          rw [← behind b outside, Pipeline.leaves]
          cases calls : s.call turn with
          | none => rfl
          | some call => exact (inRegion call calls).within now outside
        exact .some ⟨⟨rfl, shows.step inRegion stepped, kept⟩, fits.step (Pipeline.step_cases stepped),
          indexes.step fits some_block stepped, bounded.step fits indexes some_block stepped⟩
  have start : R (.start m region requests) ((Pipeline.start m region requests).over image, image) :=
    ⟨⟨rfl, shows, fun _ _ => rfl⟩, start_fits m region inside, .start region requests all,
      .start m region regional words⟩
  generalize ran : exec (Pipeline.step submitQueueNum capacity) _ turns = result,
    ran' : exec (imageStep submitQueueNum capacity) _ turns = result'
  have related : Option.Rel R result result' := ran ▸ ran' ▸ exec_rel follows start turns
  cases related with
  | some related => exact .some related.1
  | none => exact .none

/-! ## A write of both kinds -/

/-- A first start with sevens in the callers' memory. -/
def sevens : Machine :=
  { Machine.blank (mixMetadataInit BUFFER_BLOCK_NUM)
      { data := fun _ _ => 0, metas := fun _ => ⟨0, 0, 0, 0⟩ } with
    mem := fun _ => 7 }

theorem metaOfBytes_zeros : metaOfBytes (fun _ => 0) = ⟨0, 0, 0, 0⟩ := rfl

theorem shows_zeros (requests : Nat → List Request) :
    Shows (fun _ => 0) (.start sevens (fun _ _ => 0) requests) where
  region := fun _ _ => rfl
  buffer := by
    refine ⟨funext fun b => funext fun j => rfl, fun b _ => ?_⟩
    have record : nvmBufferGetMeta (Image.behind fun _ => 0) b = ⟨0, 0, 0, 0⟩ := by
      rw [getMeta_eq, ← metaOfBytes_zeros]
      exact metaOfBytes_congr fun _ _ => rfl
    exact record

/-- One block of the NVM region and one of the SSD's are written: the one is in the mapping at its
place, the other in the first buffer block of segment 1. -/
theorem writes_one_image : ∃ s image, exec (imageStep 1 4)
      ((Pipeline.start sevens (fun _ _ => 0) fun i => if i = 0 then
        [.write 0 1 5 0 0, .write 0 1 (SCHEDULER_THRESHOLD + 4) 0 0] else []).over fun _ => 0,
        fun _ => 0)
      [.post 0, .post 0, .scheduler, .scheduler, .scheduler, .scheduler, .nvm 0, .nvm 0, .nvm 0,
        .nvm 1, .nvm 1] = some (s, image) ∧
    image (5 * BLOCK_SIZE) = 7 ∧
    (bufferOf image).data 1024 ⟨0, by decide⟩ = 7 := by
  let requests (i : Nat) : List Request := if i = 0 then
    [.write 0 1 5 0 0, .write 0 1 (SCHEDULER_THRESHOLD + 4) 0 0] else []
  let turns : List Pipeline.Turn :=
    [.post 0, .post 0, .scheduler, .scheduler, .scheduler, .scheduler, .nvm 0, .nvm 0, .nvm 0,
      .nvm 1, .nvm 1]
  have regional : ∀ i, ∀ request ∈ requests i, request.Regional ∧ request.Word := by
    intro i request member
    dsimp only [requests] at member
    split at member
    · rcases List.mem_pair.1 member with rfl | rfl
      · exact ⟨.inl (by decide), Nat.two_pow_pos 64⟩
      · exact ⟨.inr ⟨by decide, by decide⟩, Nat.two_pow_pos 64⟩
    · cases member
  have stores : ((exec (Pipeline.step 1 4) (.start sevens (fun _ _ => 0) requests) turns).map
      fun s => (s.region 5 ⟨0, by decide⟩, s.m.nvm.data 1024 ⟨0, by decide⟩)) = some (7, 7) := by
    decide +kernel
  have related : Option.Rel _ (exec (Pipeline.step 1 4) (.start sevens _ requests) turns) _ :=
    one_image (fun idx => mixMetadataInit_indexed (by decide) idx) (by decide) (by decide)
    (fun i request member => (regional i request member).1)
    (fun i request member => (regional i request member).2) (shows_zeros requests) turns
  obtain ⟨s, ran, holds⟩ := Option.map_eq_some_iff.1 stores
  obtain ⟨nvm, buffer⟩ := Prod.mk.inj holds
  rw [ran] at related
  generalize ran' : exec (imageStep 1 4) _ turns = result' at related
  cases related with
  | @some _ x related =>
      obtain ⟨-, shows, -⟩ := related
      refine ⟨x.1, x.2, rfl, ?_, ?_⟩
      · have first := congrFun (shows.region 5 (by decide)) ⟨0, by decide⟩
        rw [nvm] at first
        exact first
      · rw [congrFun shows.buffer.data 1024]
        exact buffer

end Mixdk
