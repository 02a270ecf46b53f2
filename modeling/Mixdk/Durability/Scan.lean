/-
# Durability.Scan -- what the recovery scan adds to an index

`mix_buffer_rebuild` never looks whether a key or a bit is already there, so for any records
it adds to the index what they say: on the stack of each key the live slots that name it, the
last one on top, the bits of the live slots, and their number (`rebuild_adds`).
-/
import Mixdk.Hash.Stacks
import Mixdk.Core.Metadata

namespace Mixdk

set_option autoImplicit false

/-- The record of slot `v`, in a buffer with `P` blocks for each segment. -/
def slotMeta (P : Nat) (n : NvmBuffer) (idx : SegIdx) (v : Nat) : BufferMeta :=
  mixBufferGetMeta n (idx * P + v)

/-- The slot is live. -/
def slotLive (P : Nat) (n : NvmBuffer) (idx : SegIdx) (v : Nat) : Bool := (slotMeta P n idx v).valid

/-- The key the scan reads in the record of the slot. -/
def slotKey (P : Nat) (n : NvmBuffer) (idx : SegIdx) (v : Nat) : Nat := u32 (slotMeta P n idx v).offset

/-- The slot is live and names `key`. -/
def slotNames (P : Nat) (n : NvmBuffer) (idx : SegIdx) (key v : Nat) : Bool :=
  slotLive P n idx v && slotKey P n idx v == key

/-- The scan of the slots `offs` has added what their records say. -/
structure ScanAdds (n : NvmBuffer) (idx : SegIdx) (offs : List Nat) (md md' : Metadata) : Prop where
  perBlockNum : md'.perBlockNum = md.perBlockNum
  stack : ∀ key, (md'.segments idx).hash.stack key =
    (offs.filter (slotNames md.perBlockNum n idx key)).reverse ++ (md.segments idx).hash.stack key
  bit : ∀ j, mixBitmapTestBit (md'.segments idx).bitmap j = true ↔
    (j ∈ offs ∧ slotLive md.perBlockNum n idx j = true) ∨
      mixBitmapTestBit (md.segments idx).bitmap j = true
  used : (md'.segments idx).usedBlockNum =
    (md.segments idx).usedBlockNum + offs.countP (slotLive md.perBlockNum n idx)

section

variable {n : NvmBuffer} {idx : SegIdx} {offs : List Nat} {md md₁ md' : Metadata}

/-- The scan of one record. -/
theorem rebuildSlot_adds (n : NvmBuffer) (idx : SegIdx) (md : Metadata) (off : Nat) :
    ScanAdds n idx [off] md (rebuildSlot n idx md off) := by
  have record : mixBufferGetMeta n (md.bufferBlock idx off) = slotMeta md.perBlockNum n idx off := rfl
  have word : u32 (slotMeta md.perBlockNum n idx off).offset = slotKey md.perBlockNum n idx off := rfl
  rw [rebuildSlot, record]
  by_cases live : (slotMeta md.perBlockNum n idx off).valid = true
  · have lives : slotLive md.perBlockNum n idx off = true := live
    simp only [live, if_true, word]
    refine ⟨rfl, fun key => ?_, fun j => ?_, ?_⟩
    · rw [Metadata.setSegment_self, Hash.stack_put]
      by_cases names : key = slotKey md.perBlockNum n idx off
      · have named : slotNames md.perBlockNum n idx key off = true := by
          rw [slotNames, lives, names, beq_self_eq_true, Bool.and_self]
        rw [if_pos names, List.filter_cons_of_pos named]
        rfl
      · have unnamed : ¬ slotNames md.perBlockNum n idx key off = true := by
          rw [slotNames, lives, Bool.true_and, beq_iff_eq]
          exact Ne.symm names
        rw [if_neg names, List.filter_cons_of_neg unnamed]
        rfl
    · rw [Metadata.setSegment_self, testBit_setBit, Bool.or_eq_true, decide_eq_true_eq,
        List.mem_singleton]
      constructor
      · rintro (rfl | set)
        · exact .inl ⟨rfl, lives⟩
        · exact .inr set
      · rintro (⟨here, -⟩ | set)
        · exact .inl here
        · exact .inr set
    · rw [Metadata.setSegment_self, List.countP_cons_of_pos lives]
      rfl
  · have dead : ¬ slotLive md.perBlockNum n idx off = true := live
    simp only [live, if_false, Bool.false_eq_true]
    refine ⟨rfl, fun key => ?_, fun j => ?_, ?_⟩
    · have unnamed : ¬ slotNames md.perBlockNum n idx key off = true :=
        fun named => dead (Bool.and_eq_true _ _ ▸ named).1
      rw [List.filter_cons_of_neg unnamed]
      rfl
    · refine ⟨.inr, fun set => set.resolve_left ?_⟩
      rintro ⟨here, lives⟩
      exact dead (List.mem_singleton.1 here ▸ lives)
    · rw [List.countP_cons_of_neg dead]
      exact (Int.add_zero _).symm

theorem ScanAdds.append {offs' : List Nat} (first : ScanAdds n idx offs md md₁)
    (second : ScanAdds n idx offs' md₁ md') : ScanAdds n idx (offs ++ offs') md md' where
  perBlockNum := second.perBlockNum.trans first.perBlockNum
  stack := fun key => by
    rw [second.stack, first.stack, first.perBlockNum, List.filter_append, List.reverse_append,
      List.append_assoc]
  bit := fun j => by
    rw [second.bit, first.bit, first.perBlockNum, List.mem_append]
    tauto
  used := by
    rw [second.used, first.used, first.perBlockNum, List.countP_append]
    push_cast
    exact Int.add_assoc _ _ _

/-- **The scan adds to the index what the records say.** -/
theorem rebuild_adds (n : NvmBuffer) (idx : SegIdx) (md : Metadata) :
    ScanAdds n idx (List.range md.perBlockNum) md (mixBufferRebuild md n idx) := by
  have scan : ∀ (offs : List Nat) (md : Metadata),
      ScanAdds n idx offs md (offs.foldl (rebuildSlot n idx) md) := by
    intro offs
    induction offs with
    | nil =>
        intro md
        exact ⟨rfl, fun _ => rfl, fun _ => ⟨.inr, fun set => set.resolve_left (by simp)⟩,
          (Int.add_zero _).symm⟩
    | cons off offs ih => exact fun md => (rebuildSlot_adds n idx md off).append (ih _)
  exact scan _ md

end

end Mixdk
