/-
# Durability.Records -- the records as bytes

The NVM behind `meta_addr`, byte by byte: one `buffer_meta_t` of 32 bytes for each buffer
block, then the blocks.  `mix_buffer_write` copies block and record in words of eight bytes,
`mix_buffer_clear` copies a zero and `mix_buffer_get_meta` a record in words of four.  Seen
through `mix_buffer_get_meta` these are `mixBufferWrite` and `mixBufferClear`
(`nvmOfBytes_write`, `nvmOfBytes_clear`).
-/
import Mixdk.Core.Nvm
import Mixdk.Lib.Words

namespace Mixdk

set_option autoImplicit false

open Words

/-- `META_SIZE`, the packed size of `buffer_meta_t`. -/
def META_SIZE : Nat := 32

/-- `buffer_addr`, from `meta_addr` on. -/
def BUFFER_ADDR : Nat := BUFFER_BLOCK_NUM * META_SIZE

/-- A `buffer_meta_t` in memory. -/
def metaBytes (m : BufferMeta) : Nat → UInt8 :=
  storeWord (storeWord (storeWord (storeWord (fun _ => 0) 0 8 m.status) 8 8 m.timestamp)
    16 8 m.offset) 24 8 m.flags

/-- What the fields of a `buffer_meta_t` in memory hold. -/
def metaOfBytes (bytes : Nat → UInt8) : BufferMeta :=
  { status := loadWord bytes 0 8, timestamp := loadWord bytes 8 8, offset := loadWord bytes 16 8,
    flags := loadWord bytes 24 8 }

/-- A block in the caller's memory. -/
def blockBytes (src : Block) : Nat → UInt8 := fun i =>
  if inside : i < BLOCK_SIZE then src ⟨i, inside⟩ else 0

/-- `mix_ntstorenx64(dst, src, len)` into the memory `m`, from the address `s` of `src`. -/
def mixNtstorenx64 (m : Nat → UInt8) (dst : Nat) (src : Nat → UInt8) (s len : Nat) : Nat → UInt8 :=
  copyWords 8 src s m dst (len / 8)

/-- `mix_ntstorenx32(dst, src, len)` into the memory `m`, from the address `s` of `src`. -/
def mixNtstorenx32 (m : Nat → UInt8) (dst : Nat) (src : Nat → UInt8) (s len : Nat) : Nat → UInt8 :=
  copyWords 4 src s m dst (len / 4)

/-- `mix_buffer_write` on the bytes. -/
def nvmBufferWrite (nvm : Nat → UInt8) (src : Block) (srcBlock dstBlock flags : Nat) : Nat → UInt8 :=
  let bufferMeta : BufferMeta := { flags := flags, status := 1, timestamp := 0, offset := srcBlock }
  let nvm := mixNtstorenx64 nvm (BUFFER_ADDR + dstBlock * BLOCK_SIZE) (blockBytes src) 0 BLOCK_SIZE
  mixNtstorenx64 nvm (META_SIZE * dstBlock) (metaBytes bufferMeta) 0 META_SIZE

/-- `mix_buffer_clear` on the bytes. -/
def nvmBufferClear (nvm : Nat → UInt8) (dstBlock : Nat) : Nat → UInt8 :=
  mixNtstorenx32 nvm (dstBlock * META_SIZE) (storeWord (fun _ => 0) 0 8 0) 0 8

/-- `mix_buffer_get_meta` on the bytes, into a record that was zero. -/
def nvmBufferGetMeta (nvm : Nat → UInt8) (dstBlock : Nat) : BufferMeta :=
  metaOfBytes (mixNtstorenx32 (fun _ => 0) 0 nvm (META_SIZE * dstBlock) META_SIZE)

/-- The blocks and the records that the bytes hold. -/
def nvmOfBytes (nvm : Nat → UInt8) : NvmBuffer :=
  { data := fun b j => nvm (BUFFER_ADDR + b * BLOCK_SIZE + j)
    metas := nvmBufferGetMeta nvm }

/-! ## The copies -/

section

variable {nvm nvm' : Nat → UInt8} {b d x : Nat}

theorem ntstorenx64_apply (nvm : Nat → UInt8) (dst : Nat) (src : Nat → UInt8) (s : Nat) {len : Nat}
    (whole : 8 ∣ len) (x : Nat) : mixNtstorenx64 nvm dst src s len x =
      if dst ≤ x ∧ x < dst + len then src (s + (x - dst)) else nvm x := by
  rw [mixNtstorenx64, copyWords_eq, Nat.div_mul_cancel whole]

theorem ntstorenx32_apply (nvm : Nat → UInt8) (dst : Nat) (src : Nat → UInt8) (s : Nat) {len : Nat}
    (whole : 4 ∣ len) (x : Nat) : mixNtstorenx32 nvm dst src s len x =
      if dst ≤ x ∧ x < dst + len then src (s + (x - dst)) else nvm x := by
  rw [mixNtstorenx32, copyWords_eq, Nat.div_mul_cancel whole]

/-- A record depends on its 32 bytes. -/
theorem metaOfBytes_congr {bytes bytes' : Nat → UInt8}
    (same : ∀ i < META_SIZE, bytes' i = bytes i) : metaOfBytes bytes' = metaOfBytes bytes := by
  have field : ∀ a, a + 8 ≤ META_SIZE → loadWord bytes' a 8 = loadWord bytes a 8 :=
    fun a inside => loadWord_congr fun i below => same (a + i) (by omega)
  rw [metaOfBytes, metaOfBytes, field 0 (by decide), field 8 (by decide), field 16 (by decide),
    field 24 (by decide)]

/-- The record of a block, as it lies in the NVM. -/
theorem getMeta_eq (nvm : Nat → UInt8) (b : Nat) :
    nvmBufferGetMeta nvm b = metaOfBytes fun i => nvm (META_SIZE * b + i) := by
  rw [nvmBufferGetMeta]
  refine metaOfBytes_congr fun i inside => ?_
  rw [ntstorenx32_apply _ _ _ _ (by decide), if_pos ⟨Nat.zero_le i, by omega⟩, Nat.sub_zero]

theorem getMeta_congr (same : ∀ i < META_SIZE, nvm' (META_SIZE * b + i) = nvm (META_SIZE * b + i)) :
    nvmBufferGetMeta nvm' b = nvmBufferGetMeta nvm b := by
  rw [getMeta_eq, getMeta_eq]
  exact metaOfBytes_congr same

/-- Fields that fit their words are read as they were stored. -/
theorem metaOfBytes_metaBytes {m : BufferMeta} (status : m.status < 2 ^ 64)
    (timestamp : m.timestamp < 2 ^ 64) (offset : m.offset < 2 ^ 64) (flags : m.flags < 2 ^ 64) :
    metaOfBytes (metaBytes m) = m := by
  have word : (256 : Nat) ^ 8 = 2 ^ 64 := by decide
  have first : loadWord (metaBytes m) 0 8 = m.status := by
    rw [metaBytes, loadWord_storeWord_of_apart (by omega), loadWord_storeWord_of_apart (by omega),
      loadWord_storeWord_of_apart (by omega), loadWord_storeWord, word, Nat.mod_eq_of_lt status]
  have second : loadWord (metaBytes m) 8 8 = m.timestamp := by
    rw [metaBytes, loadWord_storeWord_of_apart (by omega), loadWord_storeWord_of_apart (by omega),
      loadWord_storeWord, word, Nat.mod_eq_of_lt timestamp]
  have third : loadWord (metaBytes m) 16 8 = m.offset := by
    rw [metaBytes, loadWord_storeWord_of_apart (by omega), loadWord_storeWord, word,
      Nat.mod_eq_of_lt offset]
  have fourth : loadWord (metaBytes m) 24 8 = m.flags := by
    rw [metaBytes, loadWord_storeWord, word, Nat.mod_eq_of_lt flags]
  rw [metaOfBytes, first, second, third, fourth]

/-! ## The operations, seen through the records -/

/-- The records lie before the blocks. -/
theorem meta_before_data (there : d < BUFFER_BLOCK_NUM) :
    META_SIZE * d + META_SIZE ≤ BUFFER_ADDR := by
  simp only [META_SIZE, BUFFER_ADDR, BUFFER_BLOCK_NUM] at there ⊢
  omega

/-- A write makes the record of its block, and leaves the others alone. -/
theorem getMeta_write (nvm : Nat → UInt8) (src : Block) {srcBlock dstBlock flags : Nat}
    (here : b < BUFFER_BLOCK_NUM) (word : srcBlock < 2 ^ 64) (word' : flags < 2 ^ 64) :
    nvmBufferGetMeta (nvmBufferWrite nvm src srcBlock dstBlock flags) b =
      Function.update (nvmBufferGetMeta nvm) dstBlock
        { status := 1, timestamp := 0, offset := srcBlock, flags := flags } b := by
  have before := meta_before_data here
  rw [nvmBufferWrite]
  by_cases at_ : b = dstBlock
  · have record := metaOfBytes_metaBytes
      (m := { status := 1, timestamp := 0, offset := srcBlock, flags := flags })
      (show 1 < 2 ^ 64 by decide) (show 0 < 2 ^ 64 by decide) word word'
    rw [← at_, Function.update_self, getMeta_eq]
    refine (metaOfBytes_congr fun i inside => ?_).trans record
    rw [ntstorenx64_apply _ _ _ _ (by decide), if_pos ⟨Nat.le_add_right _ _, by omega⟩,
      Nat.add_sub_cancel_left, Nat.zero_add]
  · rw [Function.update_of_ne at_]
    refine getMeta_congr fun i inside => ?_
    have apart : META_SIZE * b + META_SIZE ≤ META_SIZE * dstBlock ∨
        META_SIZE * dstBlock + META_SIZE ≤ META_SIZE * b := by
      simp only [META_SIZE]
      omega
    rw [ntstorenx64_apply _ _ _ _ (by decide), if_neg (by omega),
      ntstorenx64_apply _ _ _ _ (by decide), if_neg (by omega)]

/-- A clear takes the status of its block's record away, and leaves the others alone. -/
theorem getMeta_clear (nvm : Nat → UInt8) (d b : Nat) :
    nvmBufferGetMeta (nvmBufferClear nvm d) b =
      Function.update (nvmBufferGetMeta nvm) d { nvmBufferGetMeta nvm d with status := 0 } b := by
  have stored : ∀ x, nvmBufferClear nvm d x =
      if META_SIZE * d ≤ x ∧ x < META_SIZE * d + 8 then
        storeWord (fun _ => 0) 0 8 0 (0 + (x - META_SIZE * d))
      else nvm x := by
    intro x
    rw [nvmBufferClear, ntstorenx32_apply _ _ _ _ (by decide), Nat.mul_comm d META_SIZE]
  by_cases at_ : b = d
  · rw [← at_] at stored ⊢
    rw [Function.update_self, getMeta_eq, getMeta_eq]
    have status : loadWord (fun i => nvmBufferClear nvm b (META_SIZE * b + i)) 0 8 = 0 := by
      rw [loadWord_congr (m := storeWord (fun _ => 0) 0 8 0) (d := 0) fun i inside => ?_]
      · exact loadWord_storeWord _ _ _ _
      · rw [stored, Nat.zero_add, if_pos ⟨Nat.le_add_right _ _, by omega⟩,
          Nat.add_sub_cancel_left, Nat.zero_add]
    have field : ∀ a, 8 ≤ a →
        loadWord (fun i => nvmBufferClear nvm b (META_SIZE * b + i)) a 8 =
          loadWord (fun i => nvm (META_SIZE * b + i)) a 8 := by
      refine fun a behind => loadWord_congr fun i _ => ?_
      rw [stored, if_neg (by omega)]
    rw [metaOfBytes, metaOfBytes, status, field 8 (by decide), field 16 (by decide),
      field 24 (by decide)]
  · rw [Function.update_of_ne at_]
    refine getMeta_congr fun i inside => ?_
    have apart : META_SIZE * b + META_SIZE ≤ META_SIZE * d ∨
        META_SIZE * d + META_SIZE ≤ META_SIZE * b := by
      simp only [META_SIZE]
      omega
    have long : 8 ≤ META_SIZE := by decide
    rw [stored, if_neg (by omega)]

/-- Two buffers with the same blocks, and the same records of them. -/
structure SameBuffer (n n' : NvmBuffer) : Prop where
  data : n'.data = n.data
  metas : ∀ b < BUFFER_BLOCK_NUM, n'.metas b = n.metas b

/-- **A write of the bytes is a write of block and record.** -/
theorem nvmOfBytes_write (nvm : Nat → UInt8) (src : Block) {srcBlock dstBlock flags : Nat}
    (there : dstBlock < BUFFER_BLOCK_NUM) (word : srcBlock < 2 ^ 64) (word' : flags < 2 ^ 64) :
    SameBuffer (mixBufferWrite (nvmOfBytes nvm) src srcBlock dstBlock flags)
      (nvmOfBytes (nvmBufferWrite nvm src srcBlock dstBlock flags)) where
  data := by
    have before := meta_before_data there
    funext b j
    have inside := j.isLt
    simp only [nvmOfBytes, mixBufferWrite]
    rw [nvmBufferWrite, ntstorenx64_apply _ _ _ _ (by decide), if_neg (by omega),
      ntstorenx64_apply _ _ _ _ (by decide)]
    by_cases at_ : b = dstBlock
    · rw [at_, Function.update_self, if_pos ⟨by omega, by omega⟩, Nat.zero_add,
        Nat.add_sub_cancel_left, blockBytes, dif_pos inside]
    · rw [Function.update_of_ne at_, if_neg ?_]
      simp only [BLOCK_SIZE] at inside ⊢
      omega
  metas := fun _ here => getMeta_write nvm src here word word'

/-- **A clear of the bytes is a clear of the record.** -/
theorem nvmOfBytes_clear (nvm : Nat → UInt8) (there : d < BUFFER_BLOCK_NUM) :
    SameBuffer (mixBufferClear (nvmOfBytes nvm) d) (nvmOfBytes (nvmBufferClear nvm d)) where
  data := by
    have before := meta_before_data there
    have long : 8 ≤ META_SIZE := by decide
    funext b j
    simp only [nvmOfBytes, mixBufferClear]
    rw [nvmBufferClear, ntstorenx32_apply _ _ _ _ (by decide), Nat.mul_comm d META_SIZE,
      if_neg (by omega)]
  metas := fun b _ => getMeta_clear nvm d b

end

end Mixdk
