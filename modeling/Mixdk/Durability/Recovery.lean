/-
# Durability.Recovery -- what a restart finds

After a crash `mix_buffer_rebuild` scans the records of a segment into fresh metadata.
When the valid records name distinct blocks (`Scannable`), each block is found in the
slot whose record names it and no other block is found (`Scanned.test`), so the block a
restart finds is the buffered copy where a record names it, else the SSD's
(`recoveredBlock_of_named`, `recoveredBlock_of_unnamed`).
-/
import Mixdk.Index.Agreement

namespace Mixdk

set_option autoImplicit false

/-- The valid records of the segment name distinct blocks, and the bitmap has their slots. -/
structure Scannable (md : Metadata) (n : NvmBuffer) (idx : SegIdx) : Prop where
  distinct : ∀ v < md.perBlockNum, ∀ w < md.perBlockNum, ∀ k,
    RecordNames n (md.bufferBlock idx v) k → RecordNames n (md.bufferBlock idx w) k → v = w
  key_lt : ∀ v < md.perBlockNum, ∀ k, RecordNames n (md.bufferBlock idx v) k → k < NO_ENTRY
  slot_lt : ∀ v < md.perBlockNum, ∀ k, RecordNames n (md.bufferBlock idx v) k →
    v < (md.segments idx).bitmap.bits

/-- What the scan has made of the records of the first `off` slots. -/
structure Scanned (md md' : Metadata) (n : NvmBuffer) (idx : SegIdx) (off : Nat) : Prop where
  perBlockNum : md'.perBlockNum = md.perBlockNum
  bits : (md'.segments idx).bitmap.bits = (md.segments idx).bitmap.bits
  indexed : Indexed md.perBlockNum (md'.segments idx)
  entries : ∀ k v, (k, v) ∈ (md'.segments idx).hash.entries ↔
    v < off ∧ RecordNames n (md.bufferBlock idx v) k

section

variable {md md' : Metadata} {n : NvmBuffer} {idx : SegIdx} {off : Nat}

/-- The scan of one record. -/
theorem Scanned.step (fine : Scannable md n idx) (scanned : Scanned md md' n idx off)
    (inside : off < md.perBlockNum) : Scanned md (rebuildSlot n idx md' off) n idx (off + 1) := by
  have block := Metadata.bufferBlock_congr scanned.perBlockNum idx off
  have ok := scanned.indexed
  by_cases valid : (mixBufferGetMeta n (md.bufferBlock idx off)).valid = true
  · have names : RecordNames n (md.bufferBlock idx off)
        (mixBufferGetMeta n (md.bufferBlock idx off)).offset := ⟨valid, rfl⟩
    generalize offset : (mixBufferGetMeta n (md.bufferBlock idx off)).offset = k at names
    have only : ∀ k', RecordNames n (md.bufferBlock idx off) k' ↔ k' = k := by
      intro k'
      constructor
      · intro other
        exact other.2.symm.trans names.2
      · rintro rfl
        exact names
    have key := fine.key_lt off inside k names
    have absent : (md'.segments idx).hash.find? k = none := by
      apply (ok.sound.find?_eq_none_iff ok.keys).2
      intro w entry
      obtain ⟨earlier, there⟩ := (scanned.entries k w).1 entry
      have same := fine.distinct w (by omega) off inside k there names
      omega
    have free : off ∉ (md'.segments idx).hash.entries.map Prod.snd := by
      intro member
      obtain ⟨kv, entry, same⟩ := List.mem_map.1 member
      have earlier := ((scanned.entries kv.1 kv.2).1 entry).1
      omega
    have slot : off < (md'.segments idx).bitmap.bits := by
      rw [scanned.bits]
      exact fine.slot_lt off inside k names
    have put := ok.put (mixBitmapSetBit (md'.segments idx).bitmap off).2 absent key free
      slot rfl ok.hint (fun j set => by rw [testBit_setBit]; simpa using set)
    have stepped : rebuildSlot n idx md' off = md'.setSegment idx
        { hash := mixHashPut (md'.segments idx).hash k off
          bitmap := (mixBitmapSetBit (md'.segments idx).bitmap off).2
          usedBlockNum := (md'.segments idx).usedBlockNum + 1 } := by
      simp only [rebuildSlot, block, valid, if_true, offset, u32_key key]
    rw [stepped]
    refine ⟨scanned.perBlockNum, ?_, ?_, ?_⟩
    · rw [Metadata.setSegment_self]
      exact scanned.bits
    · rw [Metadata.setSegment_self]
      exact put
    · intro k' w
      rw [Metadata.setSegment_self, (ok.sound.entries_put k off).mem_iff, List.mem_cons,
        Prod.mk.injEq, scanned.entries]
      constructor
      · rintro (⟨rfl, rfl⟩ | ⟨earlier, there⟩)
        · exact ⟨Nat.lt_succ_self _, names⟩
        · exact ⟨by omega, there⟩
      · rintro ⟨upto, there⟩
        by_cases last : w = off
        · subst last
          exact .inl ⟨(only k').1 there, rfl⟩
        · exact .inr ⟨by omega, there⟩
  · have stepped : rebuildSlot n idx md' off = md' := by
      simp only [rebuildSlot, block, valid, if_false, Bool.false_eq_true]
    rw [stepped]
    refine ⟨scanned.perBlockNum, scanned.bits, ok, ?_⟩
    intro k w
    rw [scanned.entries]
    constructor
    · rintro ⟨earlier, there⟩
      exact ⟨by omega, there⟩
    · rintro ⟨upto, there⟩
      have other : w ≠ off := by
        rintro rfl
        exact valid there.1
      exact ⟨by omega, there⟩

/-- **The scan indexes exactly the blocks the records name.** -/
theorem rebuild_scanned (fine : Scannable md n idx)
    (ok : Indexed md.perBlockNum (md.segments idx))
    (empty : (md.segments idx).hash.entries = []) :
    Scanned md (mixBufferRebuild md n idx) n idx md.perBlockNum := by
  have scan : ∀ off ≤ md.perBlockNum,
      Scanned md ((List.range off).foldl (rebuildSlot n idx) md) n idx off := by
    intro off upto
    induction off with
    | zero =>
        refine ⟨rfl, rfl, ok, fun k v => ?_⟩
        rw [List.range_zero, List.foldl_nil, empty]
        simp
    | succ off ih =>
        rw [List.range_succ, List.foldl_append]
        exact (ih (by omega)).step fine upto
  exact scan md.perBlockNum (Nat.le_refl _)

theorem Scanned.test {m : Nat} (scanned : Scanned md md' n idx m) {k v : Nat} (key : k < NO_ENTRY) :
    mixBufferBlockTest md' k idx = v ↔ v < m ∧ RecordNames n (md.bufferBlock idx v) k := by
  have ok : Indexed md'.perBlockNum (md'.segments idx) := scanned.perBlockNum ▸ scanned.indexed
  rw [ok.test_eq_iff, u32_key key, scanned.entries]

end

/-! ## The block a restart finds -/

/-- The metadata `mix_buffer_rebuild` makes of the surviving records. -/
def recoveredMetadata (blockNum : Nat) (n : NvmBuffer) (idx : SegIdx) : Metadata :=
  mixBufferRebuild (mixMetadataInit blockNum) n idx

/-- Block `b` as it is read after the restart: the buffered copy when it is indexed, else the
SSD's. -/
def Machine.recoveredBlock (m : Machine) (blockNum : Nat) (idx : SegIdx) (b : Nat) : Block :=
  let md := recoveredMetadata blockNum m.nvm idx
  let offset := mixBufferBlockTest md b idx
  if offset = -1 then m.ssd b else mixBufferRead m.nvm (md.bufferBlock idx (ofInt32 offset))

section

variable {blockNum : Nat} {m : Machine} {idx : SegIdx} {b v : Nat}

theorem recovered_scanned (word : blockNum < 2 ^ 32)
    (fine : Scannable (mixMetadataInit blockNum) m.nvm idx) :
    Scanned (mixMetadataInit blockNum) (recoveredMetadata blockNum m.nvm idx) m.nvm idx
      (mixMetadataInit blockNum).perBlockNum :=
  rebuild_scanned fine (mixMetadataInit_indexed word idx) (mixMetadataInit_entries blockNum idx)

theorem recoveredBlock_of_named (word : blockNum < 2 ^ 32)
    (fine : Scannable (mixMetadataInit blockNum) m.nvm idx)
    (inside : v < (mixMetadataInit blockNum).perBlockNum)
    (names : RecordNames m.nvm ((mixMetadataInit blockNum).bufferBlock idx v) b) :
    m.recoveredBlock blockNum idx b =
      m.nvm.data ((mixMetadataInit blockNum).bufferBlock idx v) := by
  have scanned := recovered_scanned word fine
  have found := (scanned.test (fine.key_lt v inside b names)).2 ⟨inside, names⟩
  have small : v < 2 ^ 32 := by
    have := (mixMetadataInit_indexed word idx).small
    simp only [SEGMENT_NUM] at this
    omega
  have some_ : ¬ (v : Int) = -1 := by omega
  rw [Machine.recoveredBlock, found]
  simp only [if_neg some_, ofInt32_of_lt small, mixBufferRead,
    Metadata.bufferBlock_congr scanned.perBlockNum]

theorem recoveredBlock_of_unnamed (word : blockNum < 2 ^ 32)
    (fine : Scannable (mixMetadataInit blockNum) m.nvm idx) (key : b < NO_ENTRY)
    (unnamed : ∀ v < (mixMetadataInit blockNum).perBlockNum,
      ¬ RecordNames m.nvm ((mixMetadataInit blockNum).bufferBlock idx v) b) :
    m.recoveredBlock blockNum idx b = m.ssd b := by
  have scanned := recovered_scanned word fine
  have ok : Indexed (recoveredMetadata blockNum m.nvm idx).perBlockNum
      ((recoveredMetadata blockNum m.nvm idx).segments idx) :=
    scanned.perBlockNum ▸ scanned.indexed
  have absent : mixBufferBlockTest (recoveredMetadata blockNum m.nvm idx) b idx = -1 := by
    rw [ok.test_eq_neg_one_iff, u32_key key, ok.sound.find?_eq_none_iff ok.keys]
    intro v entry
    obtain ⟨inside, names⟩ := (scanned.entries b v).1 entry
    exact unnamed v inside names
  rw [Machine.recoveredBlock, absent]
  rfl

end

end Mixdk
