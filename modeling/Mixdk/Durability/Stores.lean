/-
# Durability.Stores -- a buffer write, store by store

`mix_ntstorenx64` copies eight bytes at a time.  `mix_buffer_write` first copies the
block, then the record; the words of a record are its four fields in the order of
`buffer_meta_t`, so `status` becomes valid before `offset` is written.  A crash can
come between any two stores (`bufferStores`).

`mix_buffer_clear` stores two halves of a zero; the first has the valid bit, and the
second overwrites a zero, so it stays one store here.
-/
import Mixdk.Index.Agreement

namespace Mixdk

set_option autoImplicit false

/-- Words of a block, as `mix_ntstorenx64` copies it. -/
def BLOCK_WORDS : Nat := BLOCK_SIZE / 8

/-- Words of `buffer_meta_t`. -/
def META_WORDS : Nat := 4

/-- The stores of one `mix_buffer_write`. -/
def BUFFER_STORES : Nat := BLOCK_WORDS + META_WORDS

/-- Word `i` of the block. -/
def storeData (n : NvmBuffer) (src : Block) (dstBlock i : Nat) : NvmBuffer :=
  let block := fun j => if j.val / 8 = i then src j else n.data dstBlock j
  { n with data := Function.update n.data dstBlock block }

/-- Word `i` of the record. -/
def storeMeta (m : BufferMeta) (srcBlock flags : Nat) : Nat → BufferMeta
  | 0 => { m with status := 1 }
  | 1 => { m with timestamp := 0 }
  | 2 => { m with offset := srcBlock }
  | _ => { m with flags := flags }

/-- Store `i` of `mix_buffer_write`. -/
def bufferStore (n : NvmBuffer) (src : Block) (srcBlock dstBlock flags i : Nat) : NvmBuffer :=
  if i < BLOCK_WORDS then storeData n src dstBlock i
  else
    let word := storeMeta (n.metas dstBlock) srcBlock flags (i - BLOCK_WORDS)
    { n with metas := Function.update n.metas dstBlock word }

/-- The first `k` stores. -/
def bufferStores (n : NvmBuffer) (src : Block) (srcBlock dstBlock flags : Nat) : Nat → NvmBuffer
  | 0 => n
  | k + 1 => bufferStore (bufferStores n src srcBlock dstBlock flags k) src srcBlock dstBlock flags k

/-- The first `k` words of a record. -/
def storeMetas (m : BufferMeta) (srcBlock flags : Nat) : Nat → BufferMeta
  | 0 => m
  | k + 1 => storeMeta (storeMetas m srcBlock flags k) srcBlock flags k

section

variable {n : NvmBuffer} {src : Block} {srcBlock dstBlock flags b k : Nat}

theorem bufferStore_of_ne (n : NvmBuffer) (src : Block) (srcBlock flags : Nat)
    (other : b ≠ dstBlock) (i : Nat) :
    (bufferStore n src srcBlock dstBlock flags i).data b = n.data b ∧
      (bufferStore n src srcBlock dstBlock flags i).metas b = n.metas b := by
  unfold bufferStore storeData
  split <;> simp [other]

/-- The other blocks are left alone. -/
theorem bufferStores_of_ne (other : b ≠ dstBlock) :
    (bufferStores n src srcBlock dstBlock flags k).data b = n.data b ∧
      (bufferStores n src srcBlock dstBlock flags k).metas b = n.metas b := by
  induction k with
  | zero => exact ⟨rfl, rfl⟩
  | succ k ih =>
      have last := bufferStore_of_ne (bufferStores n src srcBlock dstBlock flags k) src srcBlock flags
        other k
      exact ⟨last.1.trans ih.1, last.2.trans ih.2⟩

theorem bufferStores_data (j : Fin BLOCK_SIZE) :
    (bufferStores n src srcBlock dstBlock flags k).data dstBlock j =
      if j.val / 8 < k then src j else n.data dstBlock j := by
  have word : j.val / 8 < BLOCK_WORDS := by
    have := j.isLt
    simp only [BLOCK_WORDS, BLOCK_SIZE] at *
    omega
  induction k with
  | zero => simp [bufferStores]
  | succ k ih =>
      simp only [bufferStores, bufferStore]
      split
      · simp only [storeData, Function.update_self, ih]
        by_cases here : j.val / 8 = k
        · simp [here]
        · have same : j.val / 8 < k + 1 ↔ j.val / 8 < k := by omega
          simp only [here, if_false, same]
      · have done : j.val / 8 < k := by omega
        have done' : j.val / 8 < k + 1 := by omega
        simp only [ih, if_pos done, if_pos done']

/-- With its words copied, the block is the source's. -/
theorem bufferStores_block (copied : BLOCK_WORDS ≤ k) :
    (bufferStores n src srcBlock dstBlock flags k).data dstBlock = src := by
  funext j
  have := j.isLt
  rw [bufferStores_data, if_pos]
  simp only [BLOCK_WORDS, BLOCK_SIZE] at *
  omega

theorem bufferStores_metas :
    (bufferStores n src srcBlock dstBlock flags k).metas dstBlock =
      storeMetas (n.metas dstBlock) srcBlock flags (k - BLOCK_WORDS) := by
  induction k with
  | zero => simp [bufferStores, storeMetas]
  | succ k ih =>
      simp only [bufferStores, bufferStore]
      split
      · rename_i inData
        have before : k - BLOCK_WORDS = 0 := by omega
        have after : k + 1 - BLOCK_WORDS = 0 := by omega
        rw [before] at ih
        rw [after]
        exact ih
      · rename_i inMeta
        have next : k + 1 - BLOCK_WORDS = (k - BLOCK_WORDS) + 1 := by omega
        simp only [Function.update_self, ih, next, storeMetas]

/-- **All the stores make up `mix_buffer_write`.** -/
theorem bufferStores_all :
    bufferStores n src srcBlock dstBlock flags BUFFER_STORES =
      mixBufferWrite n src srcBlock dstBlock flags := by
  have data : (bufferStores n src srcBlock dstBlock flags BUFFER_STORES).data =
      Function.update n.data dstBlock src := by
    funext b
    by_cases here : b = dstBlock
    · subst here
      rw [Function.update_self, bufferStores_block (by decide)]
    · rw [Function.update_of_ne here, (bufferStores_of_ne here).1]
  have metas : (bufferStores n src srcBlock dstBlock flags BUFFER_STORES).metas =
      Function.update n.metas dstBlock
        { status := 1, timestamp := 0, offset := srcBlock, flags := flags } := by
    funext b
    by_cases here : b = dstBlock
    · subst here
      have words : BUFFER_STORES - BLOCK_WORDS = 4 := by decide
      rw [Function.update_self, bufferStores_metas, words]
      rfl
    · rw [Function.update_of_ne here, (bufferStores_of_ne here).2]
  generalize bufferStores n src srcBlock dstBlock flags BUFFER_STORES = written at data metas
  obtain ⟨_, _⟩ := written
  rw [mixBufferWrite, NvmBuffer.mk.injEq]
  exact ⟨data, metas⟩

/-! ## What the record says -/

/-- The other records say what they said. -/
theorem recordNames_stores_of_ne (other : b ≠ dstBlock) {key : Nat} :
    RecordNames (bufferStores n src srcBlock dstBlock flags k) b key ↔ RecordNames n b key := by
  simp only [RecordNames, mixBufferGetMeta, (bufferStores_of_ne other).2]

/-- While the block is copied, the record is the old one. -/
theorem recordNames_stores_data (inData : k ≤ BLOCK_WORDS) {key : Nat} :
    RecordNames (bufferStores n src srcBlock dstBlock flags k) b key ↔ RecordNames n b key := by
  by_cases here : b = dstBlock
  · subst here
    have none_ : k - BLOCK_WORDS = 0 := by omega
    simp only [RecordNames, mixBufferGetMeta, bufferStores_metas, none_, storeMetas]
  · exact recordNames_stores_of_ne here

/-- From its first word on, the record is valid. -/
theorem valid_stores (begun : BLOCK_WORDS < k) :
    ((bufferStores n src srcBlock dstBlock flags k).metas dstBlock).valid = true := by
  obtain ⟨r, words⟩ : ∃ r, k - BLOCK_WORDS = r + 1 := ⟨k - BLOCK_WORDS - 1, by omega⟩
  have status : ∀ r, (storeMetas (n.metas dstBlock) srcBlock flags (r + 1)).status = 1 := by
    intro r
    induction r with
    | zero => rfl
    | succ r ih =>
        rw [storeMetas]
        match r with
        | 0 | 1 | r + 2 => exact ih
  rw [bufferStores_metas, words, BufferMeta.valid, status]
  decide

/-- From its third word on, the record has the new block number. -/
theorem offset_stores_after (long : BLOCK_WORDS + 3 ≤ k) :
    ((bufferStores n src srcBlock dstBlock flags k).metas dstBlock).offset = srcBlock := by
  obtain ⟨r, words⟩ : ∃ r, k - BLOCK_WORDS = r + 3 := ⟨k - BLOCK_WORDS - 3, by omega⟩
  have offset : ∀ r, (storeMetas (n.metas dstBlock) srcBlock flags (r + 3)).offset = srcBlock := by
    intro r
    induction r with
    | zero => rfl
    | succ r ih => exact ih
  rw [bufferStores_metas, words, offset]

end

end Mixdk
