/-
# Core.Nvm -- the buffer region of the NVM

`nvm.c`, the part behind the SSD: `buffer_addr` holds the buffered blocks,
`meta_addr` one self-describing record for each of them.  Bit 0 of `status` says
that the block is valid, `offset` which SSD block it holds.

`mix_buffer_write` and `mix_buffer_clear` are sequences of streaming stores; here
they are taken as a whole.
-/
import Mixdk.Core.Task

namespace Mixdk

set_option autoImplicit false

/-- `buffer_meta_t`, four `size_t` words. -/
structure BufferMeta where
  status : Nat
  timestamp : Nat
  offset : Nat
  flags : Nat
deriving DecidableEq

/-- The blocks at `buffer_addr` and the records at `meta_addr`. -/
structure NvmBuffer where
  data : Nat → Block
  metas : Nat → BufferMeta

/-- `buffer_info->block_num`, as `mix_buffer_init` sets it. -/
def BUFFER_BLOCK_NUM : Nat := 4 * 1024

/-- The valid bit, as `mix_buffer_rebuild` tests it. -/
def BufferMeta.valid (m : BufferMeta) : Bool := m.status &&& 1 != 0

def mixBufferRead (n : NvmBuffer) (dstBlock : Nat) : Block := n.data dstBlock

def mixBufferWrite (n : NvmBuffer) (src : Block) (srcBlock dstBlock flags : Nat) : NvmBuffer :=
  { data := Function.update n.data dstBlock src
    metas := Function.update n.metas dstBlock
      { status := 1, timestamp := 0, offset := srcBlock, flags := flags } }

def mixBufferClear (n : NvmBuffer) (dstBlock : Nat) : NvmBuffer :=
  { n with metas := Function.update n.metas dstBlock { n.metas dstBlock with status := 0 } }

def mixBufferGetMeta (n : NvmBuffer) (dstBlock : Nat) : BufferMeta := n.metas dstBlock

@[simp] theorem clear_data (n : NvmBuffer) (b : Nat) : (mixBufferClear n b).data = n.data := rfl

end Mixdk
