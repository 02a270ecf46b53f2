/-
# Durability.RoundTrip -- the recovery scan reads what the writes recorded

A history of writes and clears of buffer blocks leaves each block live or not, and a live one
with the key of its last write (`LiveKeys`).  The bytes of the records say just that, whatever
was reused and cleared before (`records_say`); so where the live slots of a segment name
different keys, the scan builds the index of these slots (`rebuild_round_trip`).
-/
import Mixdk.Durability.Publish
import Mixdk.Durability.Records

namespace Mixdk

set_option autoImplicit false

/-- A call that changes the buffer. -/
inductive BufferCall
  | write (src : Block) (key block flags : Nat)
  | clear (block : Nat)

namespace BufferCall

/-- The block is one of the buffer, the key is below the marker and `flags` is a `size_t`. -/
def Proper : BufferCall → Prop
  | write _ key block flags => key < NO_ENTRY ∧ block < BUFFER_BLOCK_NUM ∧ flags < 2 ^ 64
  | clear block => block < BUFFER_BLOCK_NUM

/-- The call on the bytes of the NVM. -/
def onBytes (nvm : Nat → UInt8) : BufferCall → Nat → UInt8
  | write src key block flags => nvmBufferWrite nvm src key block flags
  | clear block => nvmBufferClear nvm block

end BufferCall

/-- The key of each live buffer block. -/
abbrev LiveKeys := Nat → Option Nat

def LiveKeys.call (keys : LiveKeys) : BufferCall → LiveKeys
  | .write _ key block _ => Function.update keys block (some key)
  | .clear block => Function.update keys block none

/-- What a record says: the key of its block, when it is valid. -/
def recordKey (m : BufferMeta) : Option Nat := if m.valid then some (u32 m.offset) else none

/-- No record is valid. -/
def AllInvalid (nvm : Nat → UInt8) : Prop :=
  ∀ b < BUFFER_BLOCK_NUM, (nvmBufferGetMeta nvm b).valid = false

section

variable {nvm : Nat → UInt8} {keys : LiveKeys} {idx : SegIdx} {n : NvmBuffer}

/-! ## The records and the history -/

theorem recordKey_written {key flags : Nat} (word : key < NO_ENTRY) :
    recordKey { status := 1, timestamp := 0, offset := key, flags := flags } = some key := by
  have small : key < 2 ^ 32 := Nat.lt_of_lt_of_le word (by decide)
  simp [recordKey, BufferMeta.valid, u32_of_lt small]

theorem recordKey_cleared (m : BufferMeta) : recordKey { m with status := 0 } = none := by
  simp [recordKey, BufferMeta.valid]

/-- One call keeps the records in step with the history. -/
theorem records_say_call (say : ∀ b < BUFFER_BLOCK_NUM, recordKey ((nvmOfBytes nvm).metas b) = keys b)
    {c : BufferCall} (proper : c.Proper) :
    ∀ b < BUFFER_BLOCK_NUM, recordKey ((nvmOfBytes (c.onBytes nvm)).metas b) = keys.call c b := by
  intro b here
  cases c with
  | write src key block flags =>
      obtain ⟨word, there, word'⟩ := proper
      have small : key < 2 ^ 64 := Nat.lt_of_lt_of_le word (by decide)
      rw [BufferCall.onBytes, (nvmOfBytes_write nvm src there small word').metas b here]
      simp only [mixBufferWrite, LiveKeys.call, Function.update_apply]
      split
      next => exact recordKey_written word
      next => exact say b here
  | clear block =>
      rw [BufferCall.onBytes, (nvmOfBytes_clear nvm proper).metas b here]
      simp only [mixBufferClear, LiveKeys.call, Function.update_apply]
      split
      next => exact recordKey_cleared _
      next => exact say b here

/-- **After any history each record says whether its block is live, and with which key.** -/
theorem records_say {image : Nat → UInt8} (invalid : AllInvalid image) {calls : List BufferCall}
    (proper : ∀ c ∈ calls, c.Proper) : ∀ b < BUFFER_BLOCK_NUM,
      recordKey ((nvmOfBytes (calls.foldl BufferCall.onBytes image)).metas b) =
        calls.foldl LiveKeys.call (fun _ => none) b := by
  have history : ∀ (calls : List BufferCall) nvm keys, (∀ c ∈ calls, c.Proper) →
      (∀ b < BUFFER_BLOCK_NUM, recordKey ((nvmOfBytes nvm).metas b) = keys b) →
      ∀ b < BUFFER_BLOCK_NUM,
        recordKey ((nvmOfBytes (calls.foldl BufferCall.onBytes nvm)).metas b) =
          calls.foldl LiveKeys.call keys b := by
    intro calls
    induction calls with
    | nil => exact fun _ _ _ say => say
    | cons c calls ih =>
        intro nvm keys proper say
        obtain ⟨first, rest⟩ := List.forall_mem_cons.1 proper
        exact ih _ _ rest (records_say_call say first)
  refine history calls image _ proper fun b here => ?_
  have dead : ((nvmOfBytes image).metas b).valid = false := invalid b here
  rw [recordKey, dead]
  rfl

/-! ## The scan -/

theorem slotBlock_lt {v : Nat} (inside : v < SEGMENT_SLOTS) : slotBlock idx v < BUFFER_BLOCK_NUM := by
  have segment := idx.isLt
  have slots_ : SEGMENT_SLOTS = 1024 := by decide
  rw [slotBlock, Metadata.bufferBlock, init_slots, slots_]
  rw [slots_] at inside
  simp only [BUFFER_BLOCK_NUM]
  omega

/-- A slot that names a key says so. -/
theorem slotNames_iff {key v : Nat} :
    slotNames SEGMENT_SLOTS n idx key v = true ↔ recordKey (n.metas (slotBlock idx v)) = some key := by
  have same : slotMeta SEGMENT_SLOTS n idx v = n.metas (slotBlock idx v) := rfl
  rw [slotNames, slotLive, slotKey, same, recordKey, Bool.and_eq_true, beq_iff_eq]
  split
  next valid => rw [Option.some.injEq, and_iff_right valid]
  next dead => simp [dead]

theorem slotLive_iff {v : Nat} :
    slotLive SEGMENT_SLOTS n idx v = (recordKey (n.metas (slotBlock idx v))).isSome := by
  have same : slotMeta SEGMENT_SLOTS n idx v = n.metas (slotBlock idx v) := rfl
  rw [slotLive, same, recordKey]
  split
  next valid => exact valid
  next dead => simpa using dead

/-- Where no two slots name one key, the scan finds a key in the slot that names it. -/
theorem rebuilt_find?_iff {key v : Nat}
    (distinct : ∀ v w, v < SEGMENT_SLOTS → w < SEGMENT_SLOTS →
      slotNames SEGMENT_SLOTS n idx key v = true → slotNames SEGMENT_SLOTS n idx key w = true → v = w) :
    (rebuiltIndex n idx).hash.find? key = some v ↔
      v < SEGMENT_SLOTS ∧ slotNames SEGMENT_SLOTS n idx key v = true := by
  refine ⟨rebuilt_named, fun ⟨inside, names⟩ => ?_⟩
  have member : v ∈ (List.range SEGMENT_SLOTS).filter (slotNames SEGMENT_SLOTS n idx key) :=
    List.mem_filter.2 ⟨List.mem_range.2 inside, names⟩
  have last := List.getLast?_eq_some_getLast (List.ne_nil_of_mem member)
  rw [← rebuilt_find?] at last
  obtain ⟨inside', names'⟩ := rebuilt_named last
  rw [last, distinct _ _ inside' inside names' names]

theorem rebuilt_segment (n : NvmBuffer) (idx : SegIdx) :
    (mixBufferRebuild (mixMetadataInit BUFFER_BLOCK_NUM) n idx).segments idx = rebuiltIndex n idx := by
  rw [rebuiltIndex]

/-- `mix_buffer_block_test` returns the slot that the hash has for the key, or -1. -/
theorem rebuilt_blockTest {key : Nat} (word : key < 2 ^ 32) :
    mixBufferBlockTest (mixBufferRebuild (mixMetadataInit BUFFER_BLOCK_NUM) n idx) key idx =
      match (rebuiltIndex n idx).hash.find? key with
      | some v => (v : Int)
      | none => -1 := by
  have slots_ := (rebuilt_adds n idx).perBlockNum
  rw [init_slots] at slots_
  rw [mixBufferBlockTest, u32_of_lt word, slots_, rebuilt_segment, mixHashGet_eq]
  cases found : (rebuiltIndex n idx).hash.find? key with
  | none => exact if_pos rfl
  | some v =>
      obtain ⟨inside, names⟩ := rebuilt_named found
      have small : v < 2 ^ 31 := Nat.lt_trans inside (by decide)
      have bit : mixBitmapTestBit (rebuiltIndex n idx).bitmap v = true := by
        rw [rebuilt_bit, decide_eq_true inside, Bool.true_and]
        exact ((Bool.and_eq_true _ _).mp names).1
      have slot : ofInt32 (v : Int) % SEGMENT_SLOTS = v := by
        rw [ofInt32_of_lt (by omega), Nat.mod_eq_of_lt inside]
      simp only [toInt32_of_lt small, slot]
      rw [if_neg (by omega)]
      exact if_pos bit

/-! When the records of a segment say what `keys` says, so does its index. -/

theorem rebuilt_find?_keys
    (record : ∀ v < SEGMENT_SLOTS, recordKey (n.metas (slotBlock idx v)) = keys (slotBlock idx v))
    (distinct : ∀ key v w, v < SEGMENT_SLOTS → w < SEGMENT_SLOTS →
      keys (slotBlock idx v) = some key → keys (slotBlock idx w) = some key → v = w)
    (key v : Nat) : (rebuiltIndex n idx).hash.find? key = some v ↔
      v < SEGMENT_SLOTS ∧ keys (slotBlock idx v) = some key := by
  have names : ∀ w < SEGMENT_SLOTS, (slotNames SEGMENT_SLOTS n idx key w = true ↔
      keys (slotBlock idx w) = some key) := fun w inside => by rw [slotNames_iff, record w inside]
  rw [rebuilt_find?_iff fun v w inV inW first second => distinct key v w inV inW
    ((names v inV).1 first) ((names w inW).1 second)]
  exact and_congr_right fun inside => names v inside

theorem rebuilt_bit_keys
    (record : ∀ v < SEGMENT_SLOTS, recordKey (n.metas (slotBlock idx v)) = keys (slotBlock idx v))
    (j : Nat) : mixBitmapTestBit (rebuiltIndex n idx).bitmap j = true ↔
      j < SEGMENT_SLOTS ∧ (keys (slotBlock idx j)).isSome = true := by
  rw [rebuilt_bit, Bool.and_eq_true, decide_eq_true_eq]
  refine and_congr_right fun inside => ?_
  rw [slotLive_iff, record j inside]

theorem rebuilt_used_keys
    (record : ∀ v < SEGMENT_SLOTS, recordKey (n.metas (slotBlock idx v)) = keys (slotBlock idx v)) :
    (rebuiltIndex n idx).usedBlockNum =
      (List.range SEGMENT_SLOTS).countP fun v => (keys (slotBlock idx v)).isSome := by
  rw [rebuilt_used]
  refine congrArg Nat.cast (List.countP_congr fun v member => ?_)
  rw [slotLive_iff, record v (List.mem_range.1 member)]

end

/-- **After any history of writes and clears that leaves no two live slots of the segment with
one key, the scan of fresh metadata gives the index of its live slots.** -/
theorem rebuild_round_trip {image : Nat → UInt8} (invalid : AllInvalid image)
    {calls : List BufferCall} (proper : ∀ c ∈ calls, c.Proper) (idx : SegIdx)
    (distinct : let keys := calls.foldl LiveKeys.call fun _ => none
      ∀ key v w, v < SEGMENT_SLOTS → w < SEGMENT_SLOTS → keys (slotBlock idx v) = some key →
        keys (slotBlock idx w) = some key → v = w) :
    let nvm := calls.foldl BufferCall.onBytes image
    let keys := calls.foldl LiveKeys.call fun _ => none
    let md := mixBufferRebuild (mixMetadataInit BUFFER_BLOCK_NUM) (nvmOfBytes nvm) idx
    (∀ key < 2 ^ 32, ∀ v : Nat, mixBufferBlockTest md key idx = v ↔
      v < SEGMENT_SLOTS ∧ keys (slotBlock idx v) = some key) ∧
    (∀ key < 2 ^ 32, (∀ v < SEGMENT_SLOTS, keys (slotBlock idx v) ≠ some key) →
      mixBufferBlockTest md key idx = -1) ∧
    (∀ j, mixBitmapTestBit (md.segments idx).bitmap j = true ↔
      j < SEGMENT_SLOTS ∧ (keys (slotBlock idx j)).isSome = true) ∧
    (md.segments idx).usedBlockNum =
      (List.range SEGMENT_SLOTS).countP fun v => (keys (slotBlock idx v)).isSome := by
  intro nvm keys md
  have record : ∀ v < SEGMENT_SLOTS,
      recordKey ((nvmOfBytes nvm).metas (slotBlock idx v)) = keys (slotBlock idx v) :=
    fun v inside => records_say invalid proper _ (slotBlock_lt inside)
  have found := rebuilt_find?_keys record distinct
  refine ⟨fun key word v => ?_, fun key word absent => ?_, fun j => ?_, ?_⟩
  · rw [rebuilt_blockTest word, ← found]
    cases (rebuiltIndex (nvmOfBytes nvm) idx).hash.find? key <;> simp
  · rw [rebuilt_blockTest word]
    cases at_ : (rebuiltIndex (nvmOfBytes nvm) idx).hash.find? key with
    | none => rfl
    | some w =>
        obtain ⟨inside, live⟩ := (found key w).1 at_
        exact absurd live (absent w inside)
  · rw [rebuilt_segment, rebuilt_bit_keys record]
  · rw [rebuilt_segment, rebuilt_used_keys record]

/-- Block 7 and then block 9 in slot 3 of segment 2, and block 9 in segment 0. -/
theorem rebuild_round_trip_reused :
    let calls : List BufferCall := [.write (fun _ => 1) 7 2051 0, .clear 2051,
      .write (fun _ => 2) 9 2051 0, .write (fun _ => 3) 9 5 0]
    let nvm := calls.foldl BufferCall.onBytes fun _ => 0
    let keys := calls.foldl LiveKeys.call fun _ => none
    let md := mixBufferRebuild (mixMetadataInit BUFFER_BLOCK_NUM) (nvmOfBytes nvm) 2
    (∀ key < 2 ^ 32, ∀ v : Nat, mixBufferBlockTest md key 2 = v ↔
      v < SEGMENT_SLOTS ∧ keys (slotBlock 2 v) = some key) ∧
    (∀ key < 2 ^ 32, (∀ v < SEGMENT_SLOTS, keys (slotBlock 2 v) ≠ some key) →
      mixBufferBlockTest md key 2 = -1) ∧
    (∀ j, mixBitmapTestBit (md.segments 2).bitmap j = true ↔
      j < SEGMENT_SLOTS ∧ (keys (slotBlock 2 j)).isSome = true) ∧
    (md.segments 2).usedBlockNum =
      (List.range SEGMENT_SLOTS).countP fun v => (keys (slotBlock 2 v)).isSome := by
  refine rebuild_round_trip (fun b _ => ?_) ?_ 2 ?_
  · rw [getMeta_eq]
    rfl
  · simp [BufferCall.Proper, NO_ENTRY, BUFFER_BLOCK_NUM]
  · have live : ∀ v key, ([.write (fun _ => 1) 7 2051 0, .clear 2051, .write (fun _ => 2) 9 2051 0,
        .write (fun _ => 3) 9 5 0] : List BufferCall).foldl LiveKeys.call (fun _ => none)
          (slotBlock 2 v) = some key → v = 3 := by
      intro v key is
      have block : slotBlock 2 v = 2048 + v := rfl
      simp only [List.foldl_cons, List.foldl_nil, LiveKeys.call, Function.update_apply, block] at is
      split at is
      next at_ => omega
      next =>
        split at is
        next at_ => omega
        next => simp at is
    intro keys key v w _ _ first second
    rw [live v key first, live w key second]

end Mixdk
