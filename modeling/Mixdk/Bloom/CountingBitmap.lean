/-
# Bloom.CountingBitmap -- two counters in each byte

The counting half of `mix_bitmap.c`: counter `index` is a half of byte `index / 2 + offset`,
the low one for odd indexes.  The half that is not meant is masked out and added back, so the
operations on the bytes are operations on a family of counters up to 15
(`counts_increment`, `counts_decrement`).
-/
import Mixdk.Core.Bitmap
import Mixdk.Lib.Counters

namespace Mixdk

set_option autoImplicit false

/-- The byte that holds counter `index`. -/
def countAccess (index offset : Nat) : Nat := index / 2 + offset

/-- `temp`: the half of byte `n` that is counter `index`. -/
def countTemp (index : Nat) (n : BitVec 8) : BitVec 8 :=
  if index % 2 ≠ 0 then n &&& 0x0f#8 else (n &&& 0xf0#8) >>> 4

/-- The new `n` of an increment. -/
def incrementByte (index : Nat) (n : BitVec 8) : BitVec 8 :=
  if index % 2 ≠ 0 then (n &&& 0xf0#8) + ((n &&& 0x0f#8) + 0x01#8)
  else (n &&& 0x0f#8) + ((n &&& 0xf0#8) + 0x10#8)

/-- The new `n` of a decrement. -/
def decrementByte (index : Nat) (n : BitVec 8) : BitVec 8 :=
  if index % 2 ≠ 0 then (n &&& 0xf0#8) + ((n &&& 0x0f#8) - 0x01#8)
  else (n &&& 0x0f#8) + ((n &&& 0xf0#8) - 0x10#8)

def mixCountingBitmapIncrement (b : Bitmap) (index offset : Nat) : Int × Bitmap :=
  let access := countAccess index offset
  let n := b.array access
  if countTemp index n = 0x0f#8 then (-1, b)
  else (0, { b with array := Function.update b.array access (incrementByte index n) })

def mixCountingBitmapDecrement (b : Bitmap) (index offset : Nat) : Int × Bitmap :=
  let access := countAccess index offset
  let n := b.array access
  if countTemp index n = 0x00#8 then (-1, b)
  else (0, { b with array := Function.update b.array access (decrementByte index n) })

def mixCountingBitmapCheck (b : Bitmap) (index offset : Nat) : Nat :=
  let n := b.array (countAccess index offset)
  if index % 2 ≠ 0 then (n &&& 0x0f#8).toNat else (n &&& 0xf0#8).toNat

/-- The half of a byte that counter `index` is. -/
def countHalf (index : Nat) (n : BitVec 8) : Nat :=
  if index % 2 ≠ 0 then n.toNat % 16 else n.toNat / 16

/-- The counters, in the bytes from `offset` on. -/
def counts (b : Bitmap) (offset index : Nat) : Nat :=
  countHalf index (b.array (countAccess index offset))

/-! ## Halves of a byte -/

theorem toNat_and_low (n : BitVec 8) : (n &&& 0x0f#8).toNat = n.toNat % 16 := by
  rw [BitVec.toNat_and]
  exact Nat.and_two_pow_sub_one_eq_mod n.toNat 4

theorem toNat_and_high (n : BitVec 8) : (n &&& 0xf0#8).toNat = 16 * (n.toNat / 16) := by
  have all : ∀ i : Fin 256, (BitVec.ofFin (w := 8) i &&& 0xf0#8).toNat = 16 * (i.val / 16) := by
    decide +kernel
  exact all n.toFin

/-- What the operations compare is the half they mean. -/
theorem toNat_countTemp (index : Nat) (n : BitVec 8) :
    (countTemp index n).toNat = countHalf index n := by
  unfold countTemp countHalf
  split
  next => exact toNat_and_low n
  next =>
    rw [BitVec.toNat_ushiftRight, toNat_and_high, Nat.shiftRight_eq_div_pow]
    omega

theorem countHalf_le (index : Nat) (n : BitVec 8) : countHalf index n ≤ 15 := by
  have byte := n.isLt
  unfold countHalf
  split <;> omega

/-- An increment adds one to its half, and leaves the other half alone. -/
theorem countHalf_incrementByte {index : Nat} {n : BitVec 8} (below : countHalf index n < 15)
    (other : Nat) : countHalf other (incrementByte index n) =
      if other % 2 = index % 2 then countHalf index n + 1 else countHalf other n := by
  have byte := n.isLt
  have low := toNat_and_low n
  have high := toNat_and_high n
  unfold countHalf incrementByte at *
  by_cases odd : index % 2 ≠ 0
  · rw [if_pos odd] at below ⊢
    rw [BitVec.toNat_add, BitVec.toNat_add, low, high]
    simp only [BitVec.toNat_ofNat]
    split_ifs <;> omega
  · rw [if_neg odd] at below ⊢
    rw [BitVec.toNat_add, BitVec.toNat_add, low, high]
    simp only [BitVec.toNat_ofNat]
    split_ifs <;> omega

/-- A decrement takes one from its half, and leaves the other half alone. -/
theorem countHalf_decrementByte {index : Nat} {n : BitVec 8} (positive : 0 < countHalf index n)
    (other : Nat) : countHalf other (decrementByte index n) =
      if other % 2 = index % 2 then countHalf index n - 1 else countHalf other n := by
  have byte := n.isLt
  have low := toNat_and_low n
  have high := toNat_and_high n
  unfold countHalf decrementByte at *
  by_cases odd : index % 2 ≠ 0
  · rw [if_pos odd] at positive ⊢
    rw [BitVec.toNat_add, BitVec.toNat_sub, low, high]
    simp only [BitVec.toNat_ofNat]
    split_ifs <;> omega
  · rw [if_neg odd] at positive ⊢
    rw [BitVec.toNat_add, BitVec.toNat_sub, low, high]
    simp only [BitVec.toNat_ofNat]
    split_ifs <;> omega

/-! ## The operations on counters -/

section

variable {b : Bitmap} {index offset : Nat}

theorem counts_le (b : Bitmap) (offset index : Nat) : counts b offset index ≤ 15 := countHalf_le _ _

theorem countTemp_eq_iff {top : Nat} (word : top < 256) :
    countTemp index (b.array (countAccess index offset)) = BitVec.ofNat 8 top ↔
      counts b offset index = top := by
  rw [← BitVec.toNat_inj, toNat_countTemp, BitVec.toNat_ofNat, Nat.mod_eq_of_lt word, counts]

/-- Two counters are in one byte and one half of it just when they are the same. -/
theorem same_counter_iff {i j : Nat} (sameByte : countAccess j offset = countAccess i offset) :
    j % 2 = i % 2 ↔ j = i := by
  unfold countAccess at sameByte
  omega

/-- Storing a byte that differs in one half changes one counter. -/
theorem counts_update {m : BitVec 8} {value : Nat}
    (stored : ∀ other, countHalf other m = if other % 2 = index % 2 then value
      else countHalf other (b.array (countAccess index offset))) :
    counts { b with array := Function.update b.array (countAccess index offset) m } offset =
      Function.update (counts b offset) index value := by
  funext j
  simp only [counts, Function.update_apply]
  by_cases sameByte : countAccess j offset = countAccess index offset
  · rw [if_pos sameByte, stored]
    simp only [same_counter_iff sameByte, sameByte]
  · have other : j ≠ index := fun same => sameByte (same ▸ rfl)
    rw [if_neg sameByte, if_neg other]

/-- An increment is one of counters up to 15. -/
theorem counts_increment (b : Bitmap) (index offset : Nat) :
    counts (mixCountingBitmapIncrement b index offset).2 offset =
        Counters.increment 15 (counts b offset) index ∧
      (mixCountingBitmapIncrement b index offset).1 =
        if counts b offset index = 15 then -1 else 0 := by
  unfold mixCountingBitmapIncrement Counters.increment
  simp only [countTemp_eq_iff (show 15 < 256 by decide)]
  split
  next => exact ⟨rfl, rfl⟩
  next notFull =>
    have below : counts b offset index < 15 := Nat.lt_of_le_of_ne (counts_le b offset index) notFull
    exact ⟨counts_update (countHalf_incrementByte below), rfl⟩

/-- A decrement is one of counters, and refused where there is nothing to take. -/
theorem counts_decrement (b : Bitmap) (index offset : Nat) :
    counts (mixCountingBitmapDecrement b index offset).2 offset =
        Counters.decrement (counts b offset) index ∧
      (mixCountingBitmapDecrement b index offset).1 =
        if counts b offset index = 0 then -1 else 0 := by
  unfold mixCountingBitmapDecrement Counters.decrement
  simp only [countTemp_eq_iff (show 0 < 256 by decide)]
  split
  next empty =>
    refine ⟨?_, rfl⟩
    rw [empty, Nat.zero_sub, ← empty, Function.update_eq_self]
  next some_ =>
    exact ⟨counts_update (countHalf_decrementByte (Nat.pos_of_ne_zero some_)), rfl⟩

/-- The check sees whether the counter is positive. -/
theorem mixCountingBitmapCheck_ne_zero_iff (b : Bitmap) (index offset : Nat) :
    mixCountingBitmapCheck b index offset ≠ 0 ↔ 0 < counts b offset index := by
  unfold mixCountingBitmapCheck counts countHalf
  split
  next =>
    rw [toNat_and_low]
    omega
  next =>
    rw [toNat_and_high]
    omega

end

end Mixdk
