/-
# Index.Indexed -- the index of one segment

`Indexed P seg` is what every history leaves of a segment's index: distinct blocks
on distinct slots, each slot's bit set, the counter right.  It does not say that
only the used slots' bits are set (`Exact`): `mix_write_redirect_blockmeta`
recomputes a bit number from the slot, and when that bit was clear it sets it and
returns without an entry.

`AllocSafe` says when this does not happen for the slot the search will find.  The
lemmas below give for each operation on the index the segment it leaves and that
`Indexed`, and where it is so `Exact`, are kept.
-/
import Mixdk.Core.Metadata

namespace Mixdk

open scoped List

set_option autoImplicit false

/-- The invariant of a segment's index, in a buffer with `P` blocks for each segment. -/
structure Indexed (P : Nat) (seg : Segment) : Prop where
  sound : seg.hash.Sound
  keys : (seg.hash.entries.map Prod.fst).Nodup
  slots : (seg.hash.entries.map Prod.snd).Nodup
  key_lt : ∀ kv ∈ seg.hash.entries, kv.1 < NO_ENTRY
  slot_lt : ∀ kv ∈ seg.hash.entries, kv.2 < seg.bitmap.bits
  slot_set : ∀ kv ∈ seg.hash.entries, mixBitmapTestBit seg.bitmap kv.2 = true
  used : seg.usedBlockNum = seg.hash.entries.length
  hint : seg.bitmap.nextBit ≤ 1
  bits_le : seg.bitmap.bits ≤ P
  /-- `block_num` is a `uint32_t`. -/
  small : P ≤ (2 ^ 32 - 1) / SEGMENT_NUM

/-- Every set bit is that of a used slot. -/
def Exact (seg : Segment) : Prop :=
  ∀ j, mixBitmapTestBit seg.bitmap j = true → j ∈ seg.hash.entries.map Prod.snd

theorem freeSegmentInit_bits (P : Nat) :
    (mixFreeSegmentInit (u32 (BLOCK_SIZE * P))).bitmap.bits =
      u32 (BLOCK_SIZE * P) / BLOCK_SIZE / 8 * 8 := rfl

theorem mixMetadataInit_indexed {blockNum : Nat} (word : blockNum < 2 ^ 32) (idx : SegIdx) :
    Indexed (mixMetadataInit blockNum).perBlockNum ((mixMetadataInit blockNum).segments idx) where
  sound := .init (by decide)
  keys := by simp [mixMetadataInit, mixFreeSegmentInit]
  slots := by simp [mixMetadataInit, mixFreeSegmentInit]
  key_lt := by simp [mixMetadataInit, mixFreeSegmentInit]
  slot_lt := by simp [mixMetadataInit, mixFreeSegmentInit]
  slot_set := by simp [mixMetadataInit, mixFreeSegmentInit]
  used := by simp [mixMetadataInit, mixFreeSegmentInit]
  hint := Nat.zero_le 1
  bits_le := by
    show (mixFreeSegmentInit (u32 (BLOCK_SIZE * (blockNum / SEGMENT_NUM)))).bitmap.bits ≤
      blockNum / SEGMENT_NUM
    rw [freeSegmentInit_bits]
    simp only [u32, BLOCK_SIZE, SEGMENT_NUM]
    omega
  small := by
    show blockNum / SEGMENT_NUM ≤ _
    simp only [SEGMENT_NUM]
    omega

theorem mixMetadataInit_exact (blockNum : Nat) (idx : SegIdx) :
    Exact ((mixMetadataInit blockNum).segments idx) := by
  intro j set
  simp [mixMetadataInit, mixFreeSegmentInit] at set

/-! ## Lookups -/

section Lookup

variable {md : Metadata} {idx : SegIdx}

theorem Indexed.find?_eq_some_iff {P : Nat} {seg : Segment} (ok : Indexed P seg) {k v : Nat} :
    seg.hash.find? k = some v ↔ (k, v) ∈ seg.hash.entries :=
  ok.sound.find?_eq_some_iff ok.keys

theorem Indexed.slot_small {P : Nat} {seg : Segment} (ok : Indexed P seg) {kv : MixKv}
    (entry : kv ∈ seg.hash.entries) : kv.2 < P ∧ kv.2 < 2 ^ 31 := by
  have below := ok.slot_lt kv entry
  have le := ok.bits_le
  have small := ok.small
  simp only [SEGMENT_NUM] at small
  omega

/-- A found value comes back unchanged through the C integers it passes. -/
theorem Indexed.value {P : Nat} {seg : Segment} (ok : Indexed P seg) {k v : Nat}
    (found : seg.hash.find? k = some v) :
    mixHashGet seg.hash k = v ∧ ofInt32 (v : Int) % P = v := by
  have slot := ok.slot_small (ok.find?_eq_some_iff.1 found)
  simp only at slot
  rw [mixHashGet_eq, found, ofInt32_of_lt (by omega), Nat.mod_eq_of_lt slot.1]
  exact ⟨toInt32_of_lt slot.2, rfl⟩

/-- `mix_buffer_block_test` reads the table. -/
theorem Indexed.bufferBlockTest (ok : Indexed md.perBlockNum (md.segments idx)) (offset : Nat) :
    mixBufferBlockTest md offset idx =
      match (md.segments idx).hash.find? (u32 offset) with
      | some v => (v : Int)
      | none => -1 := by
  cases found : (md.segments idx).hash.find? (u32 offset) with
  | none => simp [mixBufferBlockTest, mixHashGet_eq, found]
  | some v =>
      obtain ⟨get, bit⟩ := ok.value found
      have set := ok.slot_set _ (ok.find?_eq_some_iff.1 found)
      simp only at set
      have nonneg : ¬ (v : Int) = -1 := by omega
      simp only [mixBufferBlockTest, get, if_neg nonneg, bit, set, if_true]

theorem Indexed.test_eq_iff (ok : Indexed md.perBlockNum (md.segments idx)) {offset v : Nat} :
    mixBufferBlockTest md offset idx = v ↔ (u32 offset, v) ∈ (md.segments idx).hash.entries := by
  rw [ok.bufferBlockTest, ← ok.find?_eq_some_iff]
  cases (md.segments idx).hash.find? (u32 offset) with
  | none => simp only [reduceCtorEq]
  | some w => simp only [Option.some.injEq]; omega

theorem Indexed.test_eq_neg_one_iff (ok : Indexed md.perBlockNum (md.segments idx))
    {offset : Nat} : mixBufferBlockTest md offset idx = -1 ↔
      (md.segments idx).hash.find? (u32 offset) = none := by
  rw [ok.bufferBlockTest]
  cases (md.segments idx).hash.find? (u32 offset) with
  | none => simp
  | some w => simp only [reduceCtorEq]

end Lookup

/-! ## The slot that is allocated -/

/-- `v` is the first clear bit going round from the hint. -/
structure FirstZero (b : Bitmap) (v : Nat) : Prop where
  lt : v < b.bits
  clear : mixBitmapTestBit b v = false
  before : ∃ d < b.bits, v = (b.nextBit + d) % b.bits ∧
    ∀ e < d, mixBitmapTestBit b ((b.nextBit + e) % b.bits) = true

/-- The bitmap after slot `v` was allocated and indexed: the search sets bit `v`,
`mix_write_redirect_blockmeta` the bit it derives from `v`. -/
def allocBitmap (b : Bitmap) (idx : SegIdx) (v : Nat) : Bitmap :=
  (mixBitmapSetBit { (mixBitmapSetBit b v).2 with nextBit := (v + 1) / b.bits }
    ((v - idx) / SEGMENT_NUM)).2

/-- The two bits agree for the slot the search will find, or the second is set already. -/
def AllocSafe (b : Bitmap) (idx : SegIdx) : Prop :=
  b.nextBit = 0 ∨ mixBitmapTestBit b 0 = true ∨
    ∀ j : Nat, 1 ≤ j → j ≤ 3 + (idx : Nat) → mixBitmapTestBit b j = true

instance (b : Bitmap) (idx : SegIdx) : Decidable (AllocSafe b idx) :=
  decidable_of_iff
    (b.nextBit = 0 ∨ mixBitmapTestBit b 0 = true ∨
      ∀ j < 4 + (idx : Nat), 1 ≤ j → mixBitmapTestBit b j = true)
    (or_congr_right (or_congr_right
      ⟨fun h j low high => h j (by omega) low, fun h j high low => h j low (by omega)⟩))

theorem hint_lt {b : Bitmap} (hint : b.nextBit ≤ 1) (some_bit : 0 < b.bits) :
    b.nextBit < b.bits := by
  unfold Bitmap.bits at *
  omega

theorem testBit_allocBitmap (b : Bitmap) (idx : SegIdx) (v j : Nat) :
    mixBitmapTestBit (allocBitmap b idx v) j =
      (decide (j = (v - idx) / SEGMENT_NUM) || (decide (j = v) || mixBitmapTestBit b j)) := by
  rw [allocBitmap, testBit_setBit]
  exact congrArg _ (testBit_setBit b v j)

@[simp] theorem allocBitmap_bits (b : Bitmap) (idx : SegIdx) (v : Nat) :
    (allocBitmap b idx v).bits = b.bits := rfl

theorem allocBitmap_nextBit {b : Bitmap} (idx : SegIdx) {v : Nat} (inside : v < b.bits) :
    (allocBitmap b idx v).nextBit ≤ 1 := by
  show (v + 1) / b.bits ≤ 1
  have : (v + 1) / b.bits < 2 := Nat.div_lt_of_lt_mul (by omega)
  omega

/-- C division of a difference, rounded towards zero, as subtraction of naturals. -/
theorem redirectBit_eq {v : Nat} (idx : SegIdx) (small : v < 2 ^ 31) :
    redirectBit v idx = (v - idx) / SEGMENT_NUM := by
  unfold redirectBit
  by_cases ahead : (idx : Nat) ≤ v
  · rw [← Int.ofNat_sub ahead, SEGMENT_NUM, ← Int.ofNat_tdiv]
    exact ofInt32_of_lt (by omega)
  · have behind : ((v : Int) - (idx : Nat)) = -(((idx : Nat) - v : Nat) : Int) := by omega
    have none_below : v - (idx : Nat) = 0 := by omega
    have no_group : ((idx : Nat) - v) / 4 = 0 := by omega
    rw [behind, Int.neg_tdiv, SEGMENT_NUM, ← Int.ofNat_tdiv, no_group, none_below]
    decide

/-- The derived bit is the slot's own or was set already, exactly in the safe case. -/
theorem FirstZero.agrees_iff {b : Bitmap} {v : Nat} (first : FirstZero b v) (idx : SegIdx)
    (hint : b.nextBit ≤ 1) :
    ((v - idx) / SEGMENT_NUM = v ∨ mixBitmapTestBit b ((v - idx) / SEGMENT_NUM) = true) ↔
      AllocSafe b idx := by
  obtain ⟨lt, clear, d, below, at_, before⟩ := first
  have eight : 8 ≤ b.bits := by unfold Bitmap.bits at *; omega
  simp only [SEGMENT_NUM]
  -- bits from the hint up to `v` are set, when the search did not go round
  have passed : ∀ j, b.nextBit ≤ j → j < v → mixBitmapTestBit b j = true := by
    intro j from_ upto
    have wrap : b.nextBit + d < b.bits := by
      by_contra round
      have : (b.nextBit + d) % b.bits = b.nextBit + d - b.bits := by
        rw [Nat.mod_eq_sub_mod (by omega), Nat.mod_eq_of_lt (by omega)]
      omega
    rw [Nat.mod_eq_of_lt wrap] at at_
    have := before (j - b.nextBit) (by omega)
    rwa [Nat.add_sub_cancel' from_, Nat.mod_eq_of_lt (by omega)] at this
  constructor
  · intro agrees
    by_contra notSafe
    simp only [AllocSafe, not_or, not_forall] at notSafe
    obtain ⟨hinted, zero, j, one, le, clearJ⟩ := notSafe
    have lower : v ≤ j := by
      by_contra beyond
      exact clearJ (passed j (by omega) (by omega))
    have nonzero : v ≠ 0 := by
      rintro rfl
      have round : (b.nextBit + d) % b.bits = 0 := at_.symm
      have last : d = b.bits - 1 := by
        by_cases wrap : b.nextBit + d < b.bits
        · rw [Nat.mod_eq_of_lt wrap] at round
          omega
        · rw [Nat.mod_eq_sub_mod (by omega), Nat.mod_eq_of_lt (by omega)] at round
          omega
      have := before (j - 1) (by omega)
      rw [show b.nextBit + (j - 1) = j by omega, Nat.mod_eq_of_lt (by omega)] at this
      exact clearJ this
    have derived : (v - idx) / 4 = 0 := by omega
    rw [derived] at agrees
    rcases agrees with e | set
    · exact nonzero e.symm
    · exact zero set
  · rintro safe
    by_cases same : (v - idx) / 4 = v
    · exact Or.inl same
    · have smaller : (v - idx) / 4 < v := by omega
      by_cases hinted : b.nextBit = 0
      · exact Or.inr (passed _ (by omega) smaller)
      · by_cases derived : (v - idx) / 4 = 0
        · rcases safe with h | set | block
          · exact absurd h hinted
          · exact Or.inr (derived ▸ set)
          · have := block v (by omega) (by omega)
            rw [clear] at this
            cases this
        · exact Or.inr (passed _ (by omega) smaller)

/-! ## Entries come and go -/

/-- Block `key` gets the slot `v` the search has found. -/
def Segment.entered (seg : Segment) (idx : SegIdx) (key v : Nat) : Segment :=
  { hash := mixHashPut seg.hash key v, bitmap := allocBitmap seg.bitmap idx v,
    usedBlockNum := seg.usedBlockNum + 1 }

/-- The slot `v` the search has found is not entered. -/
def Segment.leaked (seg : Segment) (idx : SegIdx) (v : Nat) : Segment :=
  { seg with bitmap := allocBitmap seg.bitmap idx v }

/-- Block `key` leaves slot `v`. -/
def Segment.removed (seg : Segment) (key v : Nat) : Segment :=
  { hash := mixHashDelete seg.hash key, bitmap := (mixBitmapClearBit seg.bitmap v).2,
    usedBlockNum := seg.usedBlockNum - 1 }

section Change

variable {P : Nat} {seg : Segment}

/-- The bitmap of a safe allocation gains the slot's bit and nothing else. -/
theorem testBit_allocBitmap_of_safe {b : Bitmap} {idx : SegIdx} {v : Nat} (hint : b.nextBit ≤ 1)
    (first : FirstZero b v) (safe : AllocSafe b idx) (j : Nat) :
    mixBitmapTestBit (allocBitmap b idx v) j = (decide (j = v) || mixBitmapTestBit b j) := by
  rw [testBit_allocBitmap]
  by_cases derived : j = (v - idx) / SEGMENT_NUM
  · rcases (first.agrees_iff idx hint).2 safe with same | set
    · simp [derived, same]
    · simp [derived, set]
  · simp [derived]

/-- A slot whose bit is clear is not in use. -/
theorem Indexed.unused (ok : Indexed P seg) {v : Nat}
    (clear : mixBitmapTestBit seg.bitmap v = false) : v ∉ seg.hash.entries.map Prod.snd := by
  intro member
  obtain ⟨kv, entry, rfl⟩ := List.mem_map.1 member
  rw [ok.slot_set kv entry] at clear
  cases clear

/-- Distinct slots below the number of bits: no more entries than bits. -/
theorem Indexed.length_le (ok : Indexed P seg) : seg.hash.entries.length ≤ seg.bitmap.bits := by
  have inside : seg.hash.entries.map Prod.snd ⊆ List.range seg.bitmap.bits := by
    intro v member
    obtain ⟨kv, entry, rfl⟩ := List.mem_map.1 member
    exact List.mem_range.2 (ok.slot_lt kv entry)
  have := (List.subperm_of_subset ok.slots inside).length_le
  rwa [List.length_map, List.length_range] at this

/-- A chain has fewer entries than its `int` can count. -/
theorem Indexed.chain_short (ok : Indexed P seg) {i : Nat} (below : i < seg.hash.hashSize) :
    (seg.hash.chain i).length + 1 < 2 ^ 31 := by
  have entries := chain_length_le seg.hash below
  have slots := ok.length_le
  have bits := ok.bits_le
  have small := ok.small
  simp only [SEGMENT_NUM] at small
  omega

/-- A new block on a free slot, whose bit is set. -/
theorem Indexed.put (ok : Indexed P seg) {k v : Nat} (bitmap : Bitmap)
    (absent : seg.hash.find? k = none) (key : k < NO_ENTRY)
    (free : v ∉ seg.hash.entries.map Prod.snd) (inside : v < bitmap.bits)
    (bits : bitmap.bits = seg.bitmap.bits) (hint : bitmap.nextBit ≤ 1)
    (set : ∀ j, j = v ∨ mixBitmapTestBit seg.bitmap j = true → mixBitmapTestBit bitmap j = true) :
    Indexed P
      { hash := mixHashPut seg.hash k v, bitmap := bitmap,
        usedBlockNum := seg.usedBlockNum + 1 } := by
  have put := ok.sound.entries_put k v
  have fresh : k ∉ seg.hash.entries.map Prod.fst := by
    intro member
    obtain ⟨kv, entry, rfl⟩ := List.mem_map.1 member
    rw [(ok.find?_eq_some_iff (v := kv.2)).2 entry] at absent
    cases absent
  have members : ∀ kv, kv ∈ (mixHashPut seg.hash k v).entries → kv = (k, v) ∨ kv ∈ seg.hash.entries :=
    fun kv member => List.mem_cons.1 (put.mem_iff.1 member)
  refine ⟨ok.sound.put v (ok.chain_short (ok.sound.bucket_lt k)), ?_, ?_, ?_, ?_, ?_, ?_, hint, bits ▸ ok.bits_le, ok.small⟩
  · rw [(put.map Prod.fst).nodup_iff, List.map_cons, List.nodup_cons]
    exact ⟨fresh, ok.keys⟩
  · rw [(put.map Prod.snd).nodup_iff, List.map_cons, List.nodup_cons]
    exact ⟨free, ok.slots⟩
  · intro kv member
    rcases members kv member with rfl | old
    · exact key
    · exact ok.key_lt kv old
  · intro kv member
    rcases members kv member with rfl | old
    · exact inside
    · exact bits.symm ▸ ok.slot_lt kv old
  · intro kv member
    apply set
    rcases members kv member with rfl | old
    · exact Or.inl rfl
    · exact Or.inr (ok.slot_set kv old)
  · rw [put.length_eq, List.length_cons, ok.used]
    push_cast
    rfl

/-- A new block on the slot the search has found. -/
theorem Indexed.entered (ok : Indexed P seg) {idx : SegIdx} {k v : Nat}
    (absent : seg.hash.find? k = none) (key : k < NO_ENTRY) (first : FirstZero seg.bitmap v) :
    Indexed P (seg.entered idx k v) := by
  have bits := allocBitmap_bits seg.bitmap idx v
  have inside : v < (allocBitmap seg.bitmap idx v).bits := first.lt
  apply ok.put (allocBitmap seg.bitmap idx v) absent key (ok.unused first.clear) inside bits
    (allocBitmap_nextBit idx first.lt)
  intro j set
  rw [testBit_allocBitmap]
  rcases set with rfl | old
  · simp
  · simp [old]

/-- An allocation that is not entered: bits are lost, the rest is as before. -/
theorem Indexed.leaked (ok : Indexed P seg) {idx : SegIdx} {v : Nat}
    (first : FirstZero seg.bitmap v) :
    Indexed P (seg.leaked idx v) := by
  unfold Segment.leaked
  exact ⟨ok.sound, ok.keys, ok.slots, ok.key_lt, ok.slot_lt,
    fun kv entry => by rw [testBit_allocBitmap]; simp [ok.slot_set kv entry],
    ok.used, allocBitmap_nextBit idx first.lt, ok.bits_le, ok.small⟩

/-- A block leaves its slot. -/
theorem Indexed.removed (ok : Indexed P seg) {k v : Nat} (found : seg.hash.find? k = some v) :
    Indexed P (seg.removed k v) := by
  unfold Segment.removed
  have off := ok.sound.entries_delete found
  have keys := (off.map Prod.fst).nodup_iff.1 ok.keys
  have slots := (off.map Prod.snd).nodup_iff.1 ok.slots
  rw [List.map_cons, List.nodup_cons] at keys slots
  have members : ∀ kv, kv ∈ (mixHashDelete seg.hash k).entries → kv ∈ seg.hash.entries :=
    fun kv member => off.mem_iff.2 (List.mem_cons_of_mem _ member)
  refine ⟨ok.sound.delete found, keys.2, slots.2, fun kv member => ok.key_lt kv (members kv member),
    fun kv member => ok.slot_lt kv (members kv member), fun kv member => ?_, ?_, ok.hint, ok.bits_le,
    ok.small⟩
  · have other : kv.2 ≠ v := fun same => slots.1 (List.mem_map.2 ⟨kv, member, same⟩)
    rw [testBit_clearBit, ok.slot_set kv (members kv member)]
    simp [other]
  · rw [ok.used, off.length_eq, List.length_cons]
    push_cast
    omega

theorem Exact.entered (ok : Indexed P seg) (tight : Exact seg) {idx : SegIdx} {k v : Nat}
    (first : FirstZero seg.bitmap v) (safe : AllocSafe seg.bitmap idx) :
    Exact (seg.entered idx k v) := by
  intro j set
  rw [Segment.entered] at set ⊢
  rw [testBit_allocBitmap_of_safe ok.hint first safe, Bool.or_eq_true, decide_eq_true_iff] at set
  rw [((ok.sound.entries_put k v).map Prod.snd).mem_iff, List.map_cons, List.mem_cons]
  exact set.imp id fun old => tight j old

theorem Exact.removed (ok : Indexed P seg) (tight : Exact seg) {k v : Nat}
    (found : seg.hash.find? k = some v) :
    Exact (seg.removed k v) := by
  intro j set
  rw [Segment.removed] at set ⊢
  rw [testBit_clearBit, Bool.and_eq_true, decide_eq_true_iff] at set
  have member := tight j set.2
  rw [((ok.sound.entries_delete found).map Prod.snd).mem_iff, List.map_cons, List.mem_cons] at member
  exact member.resolve_left set.1

end Change

end Mixdk
