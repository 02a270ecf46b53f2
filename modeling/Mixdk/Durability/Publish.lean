/-
# Durability.Publish -- a crash while a block is published

`mix_buffer_write` copies the block and then the four words of its record, the status first
and the block number third.  A crash between these two leaves a live record that still names
whatever the slot held before: the recovery scan then maps that block to the slot
(`PublishAtomic.stale`), and the block written is lost.  So a crash leaves either the old index or
the new one exactly when the stale record already names the block (`publish_atomic_iff`).
-/
import Mixdk.Durability.Scan
import Mixdk.Durability.Stores

namespace Mixdk

set_option autoImplicit false

/-- Slots of a segment, `per_block_num`. -/
def SEGMENT_SLOTS : Nat := BUFFER_BLOCK_NUM / SEGMENT_NUM

/-- Buffer block of slot `v` of segment `idx`. -/
def slotBlock (idx : SegIdx) (v : Nat) : Nat := (mixMetadataInit BUFFER_BLOCK_NUM).bufferBlock idx v

/-- The index of segment `idx` that `mix_buffer_rebuild` builds after a restart. -/
def rebuiltIndex (n : NvmBuffer) (idx : SegIdx) : Segment :=
  (mixBufferRebuild (mixMetadataInit BUFFER_BLOCK_NUM) n idx).segments idx

/-- Two indexes say the same. -/
structure SameIndex (seg seg' : Segment) : Prop where
  find? : ∀ key, seg'.hash.find? key = seg.hash.find? key
  bit : ∀ j, mixBitmapTestBit seg'.bitmap j = mixBitmapTestBit seg.bitmap j
  used : seg'.usedBlockNum = seg.usedBlockNum

/-- The second index is the first and key `k` in slot `v`. -/
structure EnteredIndex (seg seg' : Segment) (k v : Nat) : Prop where
  find? : ∀ key, seg'.hash.find? key = if key = k then some v else seg.hash.find? key
  bit : ∀ j, mixBitmapTestBit seg'.bitmap j = (decide (j = v) || mixBitmapTestBit seg.bitmap j)
  used : seg'.usedBlockNum = seg.usedBlockNum + 1

/-- Wherever a crash interrupts the write of block `k` to slot `v` of segment `idx`, the
restart finds the old index, or the old index and `k` with its new data in the slot. -/
def PublishAtomic (n : NvmBuffer) (src : Block) (k v flags : Nat) (idx : SegIdx) : Prop :=
  ∀ j ≤ BUFFER_STORES,
    let crashed := bufferStores n src k (slotBlock idx v) flags j
    (SameIndex (rebuiltIndex n idx) (rebuiltIndex crashed idx) ∨
      EnteredIndex (rebuiltIndex n idx) (rebuiltIndex crashed idx) k v ∧
        mixBufferRead crashed (slotBlock idx v) = src) ∧
    (∀ key, (rebuiltIndex crashed idx).hash.find? key = some v → key = k) ∧
    ∀ other ≠ idx, SameIndex (rebuiltIndex n other) (rebuiltIndex crashed other)

section

variable {n n' : NvmBuffer} {idx : SegIdx} {k v : Nat}

theorem init_slots : (mixMetadataInit BUFFER_BLOCK_NUM).perBlockNum = SEGMENT_SLOTS := rfl

theorem rebuilt_adds (n : NvmBuffer) (idx : SegIdx) :
    ScanAdds n idx (List.range SEGMENT_SLOTS) (mixMetadataInit BUFFER_BLOCK_NUM)
      (mixBufferRebuild (mixMetadataInit BUFFER_BLOCK_NUM) n idx) :=
  init_slots ▸ rebuild_adds n idx _

/-- A key is found in the last live slot that names it. -/
theorem rebuilt_find? (n : NvmBuffer) (idx : SegIdx) (key : Nat) :
    (rebuiltIndex n idx).hash.find? key =
      ((List.range SEGMENT_SLOTS).filter (slotNames SEGMENT_SLOTS n idx key)).getLast? := by
  have stack := (rebuilt_adds n idx).stack key
  rw [show ((mixMetadataInit BUFFER_BLOCK_NUM).segments idx).hash.stack key = [] from rfl,
    List.append_nil] at stack
  rw [Hash.find?_eq_head?, rebuiltIndex, stack, List.head?_reverse]
  rfl

theorem rebuilt_bit (n : NvmBuffer) (idx : SegIdx) (j : Nat) :
    mixBitmapTestBit (rebuiltIndex n idx).bitmap j =
      (decide (j < SEGMENT_SLOTS) && slotLive SEGMENT_SLOTS n idx j) := by
  have clear : ¬ mixBitmapTestBit ((mixMetadataInit BUFFER_BLOCK_NUM).segments idx).bitmap j = true :=
    Bool.eq_false_iff.1 (testBit_init _ j)
  rw [Bool.eq_iff_iff, rebuiltIndex, (rebuilt_adds n idx).bit, or_iff_left clear, List.mem_range,
    Bool.and_eq_true, decide_eq_true_eq]
  rfl

theorem rebuilt_used (n : NvmBuffer) (idx : SegIdx) :
    (rebuiltIndex n idx).usedBlockNum =
      (List.range SEGMENT_SLOTS).countP (slotLive SEGMENT_SLOTS n idx) := by
  rw [rebuiltIndex, (rebuilt_adds n idx).used]
  exact Int.zero_add _

/-- A key is found only in a live slot that names it. -/
theorem rebuilt_named {key w : Nat} (found : (rebuiltIndex n idx).hash.find? key = some w) :
    w < SEGMENT_SLOTS ∧ slotNames SEGMENT_SLOTS n idx key w = true := by
  rw [rebuilt_find?] at found
  obtain ⟨inside, names⟩ := List.mem_filter.1 (List.mem_of_getLast? found)
  exact ⟨List.mem_range.1 inside, names⟩

/-- Records that say the same give the same index. -/
theorem rebuilt_same (live : ∀ w < SEGMENT_SLOTS,
      slotLive SEGMENT_SLOTS n' idx w = slotLive SEGMENT_SLOTS n idx w)
    (keys : ∀ w < SEGMENT_SLOTS, slotLive SEGMENT_SLOTS n idx w = true →
      slotKey SEGMENT_SLOTS n' idx w = slotKey SEGMENT_SLOTS n idx w) :
    SameIndex (rebuiltIndex n idx) (rebuiltIndex n' idx) where
  find? := fun key => by
    rw [rebuilt_find?, rebuilt_find?]
    refine congrArg List.getLast? (List.filter_congr fun w member => ?_)
    have inside := List.mem_range.1 member
    rw [slotNames, slotNames, live w inside]
    cases lives : slotLive SEGMENT_SLOTS n idx w with
    | false => rfl
    | true => rw [keys w inside lives]
  bit := fun j => by
    rw [rebuilt_bit, rebuilt_bit]
    by_cases inside : j < SEGMENT_SLOTS
    · rw [live j inside]
    · rw [decide_eq_false inside, Bool.false_and, Bool.false_and]
  used := by
    rw [rebuilt_used, rebuilt_used]
    refine congrArg Nat.cast (List.countP_congr fun w member => ?_)
    rw [live w (List.mem_range.1 member)]

/-- One more satisfies the second predicate. -/
theorem countP_one_more {l : List Nat} (distinct : l.Nodup) (member : v ∈ l) {p q : Nat → Bool}
    (off : p v = false) (on : q v = true) (same : ∀ w ∈ l, w ≠ v → q w = p w) :
    l.countP q = l.countP p + 1 := by
  have split := List.perm_cons_erase member
  have off' : ¬ p v = true := by rw [off]; exact Bool.false_ne_true
  rw [split.countP_eq, split.countP_eq, List.countP_cons_of_pos on, List.countP_cons_of_neg off']
  congr 1
  refine List.countP_congr fun w rest => ?_
  obtain ⟨other, inside⟩ := (distinct.mem_erase_iff).1 rest
  rw [same w inside other]

/-- One slot more is live and names `k`, which no other names: the index has one entry more. -/
theorem rebuilt_entered (inside : v < SEGMENT_SLOTS) (free : slotLive SEGMENT_SLOTS n idx v = false)
    (unnamed : ∀ w < SEGMENT_SLOTS, slotNames SEGMENT_SLOTS n idx k w = false)
    (named : slotNames SEGMENT_SLOTS n' idx k v = true)
    (same : ∀ w < SEGMENT_SLOTS, w ≠ v →
      slotMeta SEGMENT_SLOTS n' idx w = slotMeta SEGMENT_SLOTS n idx w) :
    EnteredIndex (rebuiltIndex n idx) (rebuiltIndex n' idx) k v := by
  obtain ⟨lives, key⟩ := (Bool.and_eq_true _ _).mp named
  rw [beq_iff_eq] at key
  have others : ∀ w < SEGMENT_SLOTS, w ≠ v →
      slotLive SEGMENT_SLOTS n' idx w = slotLive SEGMENT_SLOTS n idx w :=
    fun w below other => by rw [slotLive, slotLive, same w below other]
  have names : ∀ key, ∀ w < SEGMENT_SLOTS, w ≠ v →
      slotNames SEGMENT_SLOTS n' idx key w = slotNames SEGMENT_SLOTS n idx key w := by
    intro key w below other
    rw [slotNames, slotNames, others w below other, slotKey, slotKey, same w below other]
  refine ⟨fun other => ?_, fun j => ?_, ?_⟩
  · rw [rebuilt_find?, rebuilt_find?]
    split
    next here =>
      rw [here]
      have only : ∀ w ∈ (List.range SEGMENT_SLOTS).filter (slotNames SEGMENT_SLOTS n' idx k),
          w = v := by
        intro w member
        obtain ⟨below, there⟩ := List.mem_filter.1 member
        by_contra other
        rw [names k w (List.mem_range.1 below) other, unnamed w (List.mem_range.1 below)] at there
        cases there
      have some_ : v ∈ (List.range SEGMENT_SLOTS).filter (slotNames SEGMENT_SLOTS n' idx k) :=
        List.mem_filter.2 ⟨List.mem_range.2 inside, named⟩
      have nonempty := List.ne_nil_of_mem some_
      rw [List.getLast?_eq_some_getLast nonempty, only _ (List.getLast_mem nonempty)]
    next elsewhere =>
      refine congrArg List.getLast? (List.filter_congr fun w member => ?_)
      by_cases here : w = v
      · rw [here, slotNames, slotNames, free, key, Bool.false_and, Bool.and_eq_false_iff]
        exact .inr (beq_eq_false_iff_ne.2 (Ne.symm elsewhere))
      · rw [names other w (List.mem_range.1 member) here]
  · rw [rebuilt_bit, rebuilt_bit]
    by_cases here : j = v
    · rw [here, lives, decide_eq_true inside, decide_eq_true rfl]
      rfl
    · rw [decide_eq_false here, Bool.false_or]
      by_cases below : j < SEGMENT_SLOTS
      · rw [others j below here]
      · rw [decide_eq_false below, Bool.false_and, Bool.false_and]
  · rw [rebuilt_used, rebuilt_used,
      countP_one_more List.nodup_range (List.mem_range.2 inside) free lives fun w member =>
      others w (List.mem_range.1 member)]
    push_cast
    rfl

/-! ## The crash points -/

variable {src : Block} {flags j : Nat}

/-- The record of the slot after the first `j` stores. -/
theorem slotMeta_stores (n : NvmBuffer) (src : Block) (k v flags : Nat) (idx : SegIdx) (j : Nat) :
    slotMeta SEGMENT_SLOTS (bufferStores n src k (slotBlock idx v) flags j) idx v =
      storeMetas (slotMeta SEGMENT_SLOTS n idx v) k flags (j - BLOCK_WORDS) :=
  bufferStores_metas

/-- The records of other slots are left alone. -/
theorem slotMeta_stores_of_ne (inside : v < SEGMENT_SLOTS) {i : SegIdx} {w : Nat}
    (below : w < SEGMENT_SLOTS) (other : i ≠ idx ∨ w ≠ v) :
    slotMeta SEGMENT_SLOTS (bufferStores n src k (slotBlock idx v) flags j) i w =
      slotMeta SEGMENT_SLOTS n i w := by
  have elsewhere : slotBlock i w ≠ slotBlock idx v := by
    intro same
    obtain ⟨sameSegment, sameSlot⟩ := bufferBlock_inj below inside same
    exact other.elim (· sameSegment) (· sameSlot)
  exact (bufferStores_of_ne elsewhere).2

/-- The record names what it named, or the new block. -/
theorem storeMetas_offset (m : BufferMeta) (srcBlock flags r : Nat) :
    (storeMetas m srcBlock flags r).offset = m.offset ∨
      (storeMetas m srcBlock flags r).offset = srcBlock := by
  induction r with
  | zero => exact .inl rfl
  | succ r ih =>
      rw [storeMetas]
      rcases r with _ | _ | _ | r
      · exact ih
      · exact ih
      · exact .inr rfl
      · exact ih

/-- Before the first word of the record the index is the old one. -/
theorem rebuilt_stores_data (inside : v < SEGMENT_SLOTS) (inData : j ≤ BLOCK_WORDS) (i : SegIdx) :
    SameIndex (rebuiltIndex n i)
      (rebuiltIndex (bufferStores n src k (slotBlock idx v) flags j) i) := by
  have same : ∀ w < SEGMENT_SLOTS,
      slotMeta SEGMENT_SLOTS (bufferStores n src k (slotBlock idx v) flags j) i w =
        slotMeta SEGMENT_SLOTS n i w := by
    intro w below
    by_cases here : i = idx ∧ w = v
    · obtain ⟨rfl, rfl⟩ := here
      rw [slotMeta_stores, Nat.sub_eq_zero_of_le inData, storeMetas]
    · exact slotMeta_stores_of_ne inside below (not_and_or.1 here)
  exact rebuilt_same (fun w below => by rw [slotLive, slotLive, same w below])
    fun w below _ => by rw [slotKey, slotKey, same w below]

/-- The other segments' indexes are the old ones throughout. -/
theorem rebuilt_stores_elsewhere (inside : v < SEGMENT_SLOTS) {i : SegIdx} (other : i ≠ idx) :
    SameIndex (rebuiltIndex n i)
      (rebuiltIndex (bufferStores n src k (slotBlock idx v) flags j) i) :=
  rebuilt_same
    (fun w below => by rw [slotLive, slotLive, slotMeta_stores_of_ne inside below (.inl other)])
    fun w below _ => by rw [slotKey, slotKey, slotMeta_stores_of_ne inside below (.inl other)]

/-- Between the status and the block number the record names what it named. -/
theorem PublishAtomic.stale (inside : v < SEGMENT_SLOTS)
    (dead : slotLive SEGMENT_SLOTS n idx v = false)
    (atomic : PublishAtomic n src k v flags idx) : slotKey SEGMENT_SLOTS n idx v = k := by
  obtain ⟨found, -, -⟩ := atomic (BLOCK_WORDS + 1) (by decide)
  have lives : slotLive SEGMENT_SLOTS
      (bufferStores n src k (slotBlock idx v) flags (BLOCK_WORDS + 1)) idx v = true :=
    valid_stores (Nat.lt_succ_self BLOCK_WORDS)
  have key : slotKey SEGMENT_SLOTS
      (bufferStores n src k (slotBlock idx v) flags (BLOCK_WORDS + 1)) idx v =
        slotKey SEGMENT_SLOTS n idx v := by
    rw [slotKey, slotMeta_stores, Nat.add_sub_cancel_left]
    rfl
  rcases found with same | ⟨entered, -⟩
  · have bit := same.bit v
    rw [rebuilt_bit, rebuilt_bit, lives, dead, decide_eq_true inside] at bit
    cases bit
  · obtain ⟨-, named⟩ := rebuilt_named ((entered.find? k).trans (if_pos rfl))
    rwa [slotNames, lives, Bool.true_and, beq_iff_eq, key] at named

theorem slotLive_of_status (free : (slotMeta SEGMENT_SLOTS n idx v).status = 0) :
    slotLive SEGMENT_SLOTS n idx v = false := by
  rw [slotLive, BufferMeta.valid, free]
  rfl

/-- **A crash leaves the old index or the new one exactly when the stale record already named
the block.** -/
theorem publish_atomic_iff (n : NvmBuffer) (src : Block) (flags : Nat) {k v : Nat} {idx : SegIdx}
    (inside : v < SEGMENT_SLOTS) (word : k < 2 ^ 32)
    (free : (slotMeta SEGMENT_SLOTS n idx v).status = 0)
    (unnamed : ∀ w < SEGMENT_SLOTS, slotNames SEGMENT_SLOTS n idx k w = false) :
    PublishAtomic n src k v flags idx ↔ slotKey SEGMENT_SLOTS n idx v = k := by
  have dead := slotLive_of_status free
  constructor
  · exact fun atomic => atomic.stale inside dead
  · intro stale j upto
    have elsewhere : ∀ other ≠ idx, SameIndex (rebuiltIndex n other)
        (rebuiltIndex (bufferStores n src k (slotBlock idx v) flags j) other) :=
      fun other apart => rebuilt_stores_elsewhere inside apart
    by_cases inData : j ≤ BLOCK_WORDS
    · have same : SameIndex (rebuiltIndex n idx)
          (rebuiltIndex (bufferStores n src k (slotBlock idx v) flags j) idx) :=
        rebuilt_stores_data inside inData idx
      refine ⟨.inl same, fun key found => ?_, elsewhere⟩
      rw [same.find?] at found
      have named := (rebuilt_named found).2
      rw [slotNames, dead, Bool.false_and] at named
      cases named
    · have lives : slotLive SEGMENT_SLOTS (bufferStores n src k (slotBlock idx v) flags j) idx v =
          true := valid_stores (by omega)
      have names : slotKey SEGMENT_SLOTS (bufferStores n src k (slotBlock idx v) flags j) idx v = k := by
        rw [slotKey, slotMeta_stores]
        rcases storeMetas_offset (slotMeta SEGMENT_SLOTS n idx v) k flags (j - BLOCK_WORDS) with
          old | new
        · rw [old]
          exact stale
        · rw [new, u32_of_lt word]
      have named : slotNames SEGMENT_SLOTS (bufferStores n src k (slotBlock idx v) flags j) idx k v =
          true := by rw [slotNames, lives, names, beq_self_eq_true, Bool.and_self]
      refine ⟨.inr ⟨rebuilt_entered inside dead unnamed named fun w below other =>
        slotMeta_stores_of_ne inside below (.inr other), ?_⟩, fun key found => ?_, elsewhere⟩
      · exact bufferStores_block (by omega)
      · have there := (rebuilt_named found).2
        rw [slotNames, lives, names, Bool.true_and, beq_iff_eq] at there
        exact there.symm

end

/-! ## A buffer with stale records -/

/-- No record is live; all of them still name block `key`. -/
def staleImage (key : Nat) : NvmBuffer :=
  { data := fun _ _ => 0
    metas := fun _ => { status := 0, timestamp := 4, offset := key, flags := 4 } }

theorem staleImage_dead (key : Nat) (idx : SegIdx) (v : Nat) :
    slotLive SEGMENT_SLOTS (staleImage key) idx v = false := slotLive_of_status rfl

/-- Block 9 goes back to the slot it was in. -/
theorem publish_atomic_iff_back : PublishAtomic (staleImage 9) (fun _ => 1) 9 3 0 2 ↔
    slotKey SEGMENT_SLOTS (staleImage 9) 2 3 = 9 :=
  publish_atomic_iff (staleImage 9) (fun _ => 1) 0 (by decide) (by decide) rfl fun w _ => by
    rw [slotNames, staleImage_dead, Bool.false_and]

/-- Block 9 goes to a slot where block 7 was. -/
theorem publish_not_atomic : (∀ v < SEGMENT_SLOTS, slotLive SEGMENT_SLOTS (staleImage 7) 2 v = false) ∧
    (slotMeta SEGMENT_SLOTS (staleImage 7) 2 3).status = 0 ∧
    ¬ PublishAtomic (staleImage 7) (fun _ => 1) 9 3 0 2 :=
  ⟨fun v _ => staleImage_dead 7 2 v, rfl, fun atomic =>
    absurd (atomic.stale (by decide) (staleImage_dead 7 2 3)) (by decide)⟩

end Mixdk
