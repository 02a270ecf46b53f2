/-
# Core.Machine -- the state the workers act on

`Machine` is everything but the queues: the index, the buffer region, the SSD,
the callers' memory, the staging areas of `ssd.c`, the copy buffers of the
migrate threads and the completion counters.

`mix_ssd_read` and `mix_ssd_write` each go through a staging area in two phases
(`pread` then `memcpy`, `memcpy` then `pwrite`).  The phases are operations of
their own, because another thread can run between them.  A staging area has 16
blocks, four for each slot; both functions copy `len` blocks from the start of
their slot.
-/
import Mixdk.Core.Metadata

namespace Mixdk

set_option autoImplicit false

namespace Mem

/-- Copy `n` blocks to address `p` and on. -/
def storeBlocks (m : Mem) (p n : Nat) (src : Nat → Block) : Mem := fun a =>
  if p ≤ a ∧ a < p + n * BLOCK_SIZE then
    src ((a - p) / BLOCK_SIZE) ⟨(a - p) % BLOCK_SIZE, Nat.mod_lt _ (by decide)⟩
  else m a

end Mem

structure Machine where
  md : Metadata
  nvm : NvmBuffer
  ssd : Nat → Block
  mem : Mem
  /-- `memalign_src`, by block. -/
  memalignSrc : Nat → Block
  /-- `memalign_dst`, by block. -/
  memalignDst : Nat → Block
  /-- `migrate_buf[t]`. -/
  migrateBuf : Nat → Block
  /-- The read counters, by address. -/
  ret : Nat → Nat
  completedNvmWriteBlockNum : Nat
  completedSsdWriteBlockNum : Nat

/-- Replace `n` blocks from block `p` on. -/
def setBlocks (f : Nat → Block) (p n : Nat) (src : Nat → Block) : Nat → Block := fun b =>
  if p ≤ b ∧ b < p + n then src (b - p) else f b

/-- First block of staging slot `slot`. -/
def stagingBlock (slot : Nat) : Nat := slot * 4

/-- The slot `mix_ssd_read` uses for a read at `offset`. -/
def readSlot (offset : Nat) : Nat := (offset &&& 15) / 4

namespace Machine

/-- A machine with this index and this NVM, everything else zero. -/
def blank (md : Metadata) (nvm : NvmBuffer) : Machine :=
  { md := md, nvm := nvm, ssd := fun _ _ => 0, mem := fun _ => 0, memalignSrc := fun _ _ => 0,
    memalignDst := fun _ _ => 0, migrateBuf := fun _ _ => 0, ret := fun _ => 0,
    completedNvmWriteBlockNum := 0, completedSsdWriteBlockNum := 0 }

/-- `mix_ssd_read`: the `pread` into the staging area. -/
def ssdReadStage (m : Machine) (len offset : Nat) : Machine :=
  { m with memalignDst :=
      setBlocks m.memalignDst (stagingBlock (readSlot offset)) len fun j => m.ssd (offset + j) }

/-- `mix_ssd_read`: the `memcpy` to the caller. -/
def ssdReadCopy (m : Machine) (dst len offset : Nat) : Machine :=
  { m with mem :=
      m.mem.storeBlocks dst len fun j => m.memalignDst (stagingBlock (readSlot offset) + j) }

def mixSsdRead (m : Machine) (dst len offset : Nat) : Machine :=
  (m.ssdReadStage len offset).ssdReadCopy dst len offset

/-- `mix_ssd_write`: the `memcpy` into staging slot `idx`. -/
def ssdWriteStage (m : Machine) (src : Nat → Block) (len idx : Nat) : Machine :=
  { m with memalignSrc := setBlocks m.memalignSrc (stagingBlock idx) len src }

/-- `mix_ssd_write`: the `pwrite` from staging slot `idx`. -/
def ssdWriteFlush (m : Machine) (len offset idx : Nat) : Machine :=
  { m with ssd := setBlocks m.ssd offset len fun j => m.memalignSrc (stagingBlock idx + j) }

/-- The blocks at address `p` and on. -/
def blocksAt (m : Machine) (p : Nat) : Nat → Block := fun j => m.mem.load (p + j * BLOCK_SIZE)

def mixSsdWrite (m : Machine) (src : Nat → Block) (len offset idx : Nat) : Machine :=
  (m.ssdWriteStage src len idx).ssdWriteFlush len offset idx

/-- `atomic_fetch_add_explicit(ret, n, ..)`. -/
def addRet (m : Machine) (ret n : Nat) : Machine :=
  { m with ret := Function.update m.ret ret (m.ret ret + n) }

/-- One task of `ssd_worker`. -/
def ssdWorkerTask (m : Machine) (idx : SegIdx) (task : IoTask) : Machine :=
  let opCode := task.opcode &&& (MIX_READ ||| MIX_WRITE)
  if opCode = MIX_READ then
    (m.mixSsdRead task.buf task.len task.offset).addRet task.ret task.len
  else if opCode = MIX_WRITE then
    let m := m.mixSsdWrite (m.blocksAt task.buf) task.len task.offset idx
    { m with completedSsdWriteBlockNum := m.completedSsdWriteBlockNum + task.len }
  else m

/-- The first half of a task of `ssd_worker`: the blocks reach the staging area. -/
def ssdTaskStage (m : Machine) (idx : SegIdx) (task : IoTask) : Machine :=
  let opCode := task.opcode &&& (MIX_READ ||| MIX_WRITE)
  if opCode = MIX_READ then m.ssdReadStage task.len task.offset
  else if opCode = MIX_WRITE then m.ssdWriteStage (m.blocksAt task.buf) task.len idx
  else m

/-- The second half: they leave it for the caller or for the SSD, and are counted. -/
def ssdTaskComplete (m : Machine) (idx : SegIdx) (task : IoTask) : Machine :=
  let opCode := task.opcode &&& (MIX_READ ||| MIX_WRITE)
  if opCode = MIX_READ then
    (m.ssdReadCopy task.buf task.len task.offset).addRet task.ret task.len
  else if opCode = MIX_WRITE then
    let m := m.ssdWriteFlush task.len task.offset idx
    { m with completedSsdWriteBlockNum := m.completedSsdWriteBlockNum + task.len }
  else m

theorem ssdTaskComplete_stage (m : Machine) (idx : SegIdx) (task : IoTask) :
    (m.ssdTaskStage idx task).ssdTaskComplete idx task = m.ssdWorkerTask idx task := by
  unfold ssdTaskStage ssdTaskComplete ssdWorkerTask
  by_cases read : task.opcode &&& (MIX_READ ||| MIX_WRITE) = MIX_READ
  · simp only [if_pos read, mixSsdRead]
  · by_cases write : task.opcode &&& (MIX_READ ||| MIX_WRITE) = MIX_WRITE
    · simp only [if_neg read, if_pos write, mixSsdWrite]
    · simp only [if_neg read, if_neg write]

end Machine

end Mixdk
