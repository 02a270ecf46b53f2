/-
# Core.Metadata -- the volatile index of the buffer

`mix_meta.c`.  For each of the four segments the index keeps a hash from SSD
block to slot, a bitmap of the slots in use and the number of slots in use;
`Segment` puts `hash[idx]` and `segments[idx]` together.  Slots are numbered
inside their segment: slot `v` of segment `idx` is buffer block
`idx * per_block_num + v` (`Metadata.bufferBlock`).  `block_num` is a `uint32_t`,
so the number of a buffer block never wraps.

`mix_clear_block` also invalidates records in the NVM; it returns the numbers of
the buffer blocks it hands to `mix_buffer_clear`, in order.
-/
import Mixdk.Core.Bitmap
import Mixdk.Core.Hash
import Mixdk.Core.Nvm

namespace Mixdk

set_option autoImplicit false

/-- `hash[idx]` and `segments[idx]` of the metadata. -/
structure Segment where
  hash : Hash
  bitmap : Bitmap
  usedBlockNum : Int

/-- `mix_metadata_t`. -/
structure Metadata where
  perBlockNum : Nat
  segments : SegIdx → Segment

namespace Metadata

def setSegment (md : Metadata) (idx : SegIdx) (seg : Segment) : Metadata :=
  { md with segments := Function.update md.segments idx seg }

@[simp] theorem setSegment_perBlockNum (md : Metadata) (idx : SegIdx) (seg : Segment) :
    (md.setSegment idx seg).perBlockNum = md.perBlockNum := rfl

@[simp] theorem setSegment_self (md : Metadata) (idx : SegIdx) (seg : Segment) :
    (md.setSegment idx seg).segments idx = seg := by simp [setSegment]

theorem setSegment_of_ne (md : Metadata) {idx j : SegIdx} (seg : Segment) (ne : j ≠ idx) :
    (md.setSegment idx seg).segments j = md.segments j := by
  simp [setSegment, Function.update_of_ne ne]

@[simp] theorem setSegment_setSegment (md : Metadata) (idx : SegIdx) (a b : Segment) :
    (md.setSegment idx a).setSegment idx b = md.setSegment idx b := by
  simp [setSegment]

@[simp] theorem setSegment_same (md : Metadata) (idx : SegIdx) :
    md.setSegment idx (md.segments idx) = md := by
  simp [setSegment]

theorem setSegment_comm (md : Metadata) {i j : SegIdx} (other : i ≠ j) (a b : Segment) :
    (md.setSegment i a).setSegment j b = (md.setSegment j b).setSegment i a := by
  simp only [setSegment, Function.update_comm other]

/-- Buffer block of slot `slot` of segment `idx`. -/
def bufferBlock (md : Metadata) (idx : SegIdx) (slot : Nat) : Nat :=
  idx * md.perBlockNum + slot

theorem bufferBlock_congr {md md' : Metadata} (same : md'.perBlockNum = md.perBlockNum)
    (idx : SegIdx) (slot : Nat) : md'.bufferBlock idx slot = md.bufferBlock idx slot := by
  rw [bufferBlock, bufferBlock, same]

end Metadata

/-- The segment's size in bytes reaches `mix_free_segment_init` as a `uint32_t`. -/
def mixFreeSegmentInit (size : Nat) : Segment :=
  { hash := mixHashInit 100, bitmap := mixBitmapInit (size / BLOCK_SIZE), usedBlockNum := 0 }

def mixMetadataInit (blockNum : Nat) : Metadata :=
  let perBlockNum := blockNum / SEGMENT_NUM
  let perSegmentSize := u32 (BLOCK_SIZE * perBlockNum)
  { perBlockNum := perBlockNum, segments := fun _ => mixFreeSegmentInit perSegmentSize }

/-- The slot is -1 when the segment is full; `none` when the search does not end. -/
def mixGetNextFreeBlock (md : Metadata) (idx : SegIdx) : Option (Int × Metadata) :=
  let seg := md.segments idx
  if seg.usedBlockNum = md.perBlockNum then some (-1, md)
  else (mixBitmapNextZeroBit seg.bitmap).map fun found =>
    (found.1, md.setSegment idx { seg with bitmap := found.2 })

/-- The bit `mix_write_redirect_blockmeta` derives from a slot.  C division rounds
towards zero. -/
def redirectBit (value : Int) (idx : SegIdx) : Nat := ofInt32 ((value - idx).tdiv SEGMENT_NUM)

def mixWriteRedirectBlockmeta (md : Metadata) (idx : SegIdx) (offset : Nat) (value : Int) :
    Metadata :=
  let seg := md.segments idx
  let set := mixBitmapSetBit seg.bitmap (redirectBit value idx)
  if set.1 then
    md.setSegment idx
      { hash := mixHashPut seg.hash offset (ofInt32 value), bitmap := set.2,
        usedBlockNum := seg.usedBlockNum + 1 }
  else md.setSegment idx { seg with bitmap := set.2 }

/-- One turn of `mix_clear_block` for a block whose hash value is `value`. -/
def clearEntry (md : Metadata) (idx : SegIdx) (key bit : Nat) : Metadata :=
  let seg := md.segments idx
  md.setSegment idx
    { hash := mixHashDelete seg.hash key, bitmap := (mixBitmapClearBit seg.bitmap bit).2,
      usedBlockNum := seg.usedBlockNum - 1 }

/-- `n` turns of the loop from block `offset` on; it returns at the first block that
is not in the hash. -/
def clearBlockLoop (idx : SegIdx) : Nat → Nat → Metadata → Metadata × List Nat
  | 0, _, md => (md, [])
  | n + 1, offset, md =>
      let value := mixHashGet (md.segments idx).hash (u32 offset)
      if value = -1 then (md, [])
      else
        let bit := ofInt32 value % md.perBlockNum
        let rest := clearBlockLoop idx n (offset + 1) (clearEntry md idx (u32 offset) bit)
        (rest.1, md.bufferBlock idx bit :: rest.2)

def mixClearBlock (md : Metadata) (task : IoTask) (idx : SegIdx) : Metadata × List Nat :=
  clearBlockLoop idx task.len task.offset md

/-- The slot of a block, or -1. -/
def mixBufferBlockTest (md : Metadata) (offset : Nat) (idx : SegIdx) : Int :=
  let value := mixHashGet (md.segments idx).hash (u32 offset)
  if value = -1 then -1
  else if mixBitmapTestBit (md.segments idx).bitmap (ofInt32 value % md.perBlockNum) then value
  else -1

/-! ## Start-up -/

/-- One record of the scan of `mix_buffer_rebuild`. -/
def rebuildSlot (n : NvmBuffer) (idx : SegIdx) (md : Metadata) (off : Nat) : Metadata :=
  let bufferMeta := mixBufferGetMeta n (md.bufferBlock idx off)
  if bufferMeta.valid then
    let seg := md.segments idx
    md.setSegment idx
      { hash := mixHashPut seg.hash (u32 bufferMeta.offset) off
        bitmap := (mixBitmapSetBit seg.bitmap off).2
        usedBlockNum := seg.usedBlockNum + 1 }
  else md

def mixBufferRebuild (md : Metadata) (n : NvmBuffer) (idx : SegIdx) : Metadata :=
  (List.range md.perBlockNum).foldl (rebuildSlot n idx) md

def mixSegmentClear (md : Metadata) (n : NvmBuffer) (idx : SegIdx) : NvmBuffer :=
  (List.range md.perBlockNum).foldl (fun n i => mixBufferClear n (md.bufferBlock idx i)) n

/-- The clearing loop of `mix_rebuild`. -/
def clearSegments (md : Metadata) (n : NvmBuffer) : NvmBuffer :=
  (List.finRange SEGMENT_NUM).foldl (fun n idx => mixSegmentClear md n idx) n

/-- `mix_rebuild` at start-up: clear the records of all segments, then let the four
waiting workers rebuild theirs. -/
def mixRebuild (md : Metadata) (n : NvmBuffer) : Metadata × NvmBuffer :=
  let n := clearSegments md n
  ((List.finRange SEGMENT_NUM).foldl (fun md idx => mixBufferRebuild md n idx) md, n)

/-- The index and the buffer region `mix_init_scheduler` starts the scheduler with,
on the NVM image it mapped. -/
def mixInitScheduler (image : NvmBuffer) : Metadata × NvmBuffer :=
  mixRebuild (mixMetadataInit BUFFER_BLOCK_NUM) image

/-- `mix_segments_clear` is `mix_rebuild` on a running system: the workers have left
their wait and `rebuild_num` has its final value, so only the records are cleared. -/
def mixSegmentsClear (md : Metadata) (n : NvmBuffer) : NvmBuffer := clearSegments md n

end Mixdk
