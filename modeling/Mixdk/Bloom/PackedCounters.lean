/-
# Bloom.PackedCounters -- the bytes are a family of 4-bit counters

The counters of all offsets are one family: counter `index` from `offset` on is number
`index + 2 * offset`, the high half of its byte for even numbers.  The two halves of each
byte say what the byte is (`byte_ext`), so whatever holds of the family holds of the array:
a call changes its own counter and nothing else, a refused call changes nothing, and a
decrement takes back an increment (`packedCounters_refine`).
-/
import Mixdk.Bloom.CountingBitmap
import Mixdk.Lib.Transition

namespace Mixdk

set_option autoImplicit false

open Transition

/-- A call for counter `index` in the bytes from `offset` on. -/
inductive CountCall
  | increment (index offset : Nat)
  | decrement (index offset : Nat)
  | check (index offset : Nat)

/-- The number of the counter, through all bytes. -/
def counterNumber (index offset : Nat) : Nat := index + 2 * offset

/-- The array after a call, and what it returns; of a check, whether it is non-zero. -/
def Bitmap.countCall (b : Bitmap) : CountCall → Bitmap × Int
  | .increment index offset =>
      ((mixCountingBitmapIncrement b index offset).2, (mixCountingBitmapIncrement b index offset).1)
  | .decrement index offset =>
      ((mixCountingBitmapDecrement b index offset).2, (mixCountingBitmapDecrement b index offset).1)
  | .check index offset => (b, if mixCountingBitmapCheck b index offset ≠ 0 then 1 else 0)

/-- Counters from 0 to 15, each on its own. -/
abbrev CounterFamily := Nat → Nat

def CounterFamily.call (c : CounterFamily) : CountCall → CounterFamily × Int
  | .increment index offset =>
      let i := counterNumber index offset
      if c i = 15 then (c, -1) else (Function.update c i (c i + 1), 0)
  | .decrement index offset =>
      let i := counterNumber index offset
      if c i = 0 then (c, -1) else (Function.update c i (c i - 1), 0)
  | .check index offset => (c, if 0 < c (counterNumber index offset) then 1 else 0)

/-! ## One byte -/

/-- The halves of a byte say what it is. -/
theorem byte_ext {m n : BitVec 8} (same : ∀ index, countHalf index m = countHalf index n) :
    m = n := by
  have high : m.toNat / 16 = n.toNat / 16 := same 0
  have low : m.toNat % 16 = n.toNat % 16 := same 1
  apply BitVec.eq_of_toNat_eq
  omega

/-- A decrement takes back an increment that fits. -/
theorem decrementByte_incrementByte {index : Nat} {n : BitVec 8} (below : countHalf index n < 15) :
    decrementByte index (incrementByte index n) = n := by
  refine byte_ext fun other => ?_
  have added := countHalf_incrementByte below
  have here : countHalf index (incrementByte index n) = countHalf index n + 1 :=
    (added index).trans (if_pos rfl)
  rw [countHalf_decrementByte (by omega), here, added other]
  by_cases half : other % 2 = index % 2
  · rw [if_pos half]
    simp only [countHalf, half, Nat.add_sub_cancel]
  · rw [if_neg half, if_neg half]

/-! ## Counters of one offset and of all -/

section

variable {b : Bitmap} {index offset : Nat}

theorem counterNumber_mod (index offset : Nat) : counterNumber index offset % 2 = index % 2 := by
  rw [counterNumber]
  omega

theorem countAccess_counterNumber (index offset : Nat) :
    countAccess (counterNumber index offset) 0 = countAccess index offset := by
  rw [countAccess, countAccess, counterNumber]
  omega

theorem counts_number (b : Bitmap) (index offset : Nat) :
    counts b 0 (counterNumber index offset) = counts b offset index := by
  rw [counts, counts, countAccess_counterNumber, countHalf, countHalf, counterNumber_mod]

/-- What is done with a byte depends on the parity of the index. -/
theorem byte_counterNumber (index offset : Nat) :
    countTemp (counterNumber index offset) = countTemp index ∧
      incrementByte (counterNumber index offset) = incrementByte index ∧
      decrementByte (counterNumber index offset) = decrementByte index := by
  refine ⟨funext fun n => ?_, funext fun n => ?_, funext fun n => ?_⟩
  · rw [countTemp, counterNumber_mod, countTemp]
  · rw [incrementByte, counterNumber_mod, incrementByte]
  · rw [decrementByte, counterNumber_mod, decrementByte]

/-- An increment is one of the counter with its number. -/
theorem increment_number (b : Bitmap) (index offset : Nat) :
    mixCountingBitmapIncrement b index offset =
      mixCountingBitmapIncrement b (counterNumber index offset) 0 := by
  obtain ⟨temp, byte, -⟩ := byte_counterNumber index offset
  simp only [mixCountingBitmapIncrement, countAccess_counterNumber, temp, byte]

theorem decrement_number (b : Bitmap) (index offset : Nat) :
    mixCountingBitmapDecrement b index offset =
      mixCountingBitmapDecrement b (counterNumber index offset) 0 := by
  obtain ⟨temp, -, byte⟩ := byte_counterNumber index offset
  simp only [mixCountingBitmapDecrement, countAccess_counterNumber, temp, byte]

/-- **Each call on the bytes is one on the counters.** -/
theorem countCall_refines (b : Bitmap) (c : CountCall) :
    counts (b.countCall c).1 0 = (CounterFamily.call (counts b 0) c).1 ∧
      (b.countCall c).2 = (CounterFamily.call (counts b 0) c).2 := by
  cases c with
  | increment index offset =>
      obtain ⟨after, answer⟩ := counts_increment b (counterNumber index offset) 0
      rw [Bitmap.countCall, increment_number, after, answer, CounterFamily.call,
        Counters.increment]
      by_cases full : counts b 0 (counterNumber index offset) = 15 <;> simp [full]
  | decrement index offset =>
      obtain ⟨after, answer⟩ := counts_decrement b (counterNumber index offset) 0
      rw [Bitmap.countCall, decrement_number, after, answer, CounterFamily.call,
        Counters.decrement]
      by_cases empty : counts b 0 (counterNumber index offset) = 0
      · have same := Function.update_eq_self (counterNumber index offset) (counts b 0)
        rw [empty] at same
        simp [empty, same]
      · simp [empty]
  | check index offset =>
      refine ⟨rfl, ?_⟩
      simp only [Bitmap.countCall, CounterFamily.call, mixCountingBitmapCheck_ne_zero_iff,
        counts_number]

/-- A refused increment leaves the array as it was. -/
theorem increment_refused (refused : (mixCountingBitmapIncrement b index offset).1 = -1) :
    (mixCountingBitmapIncrement b index offset).2 = b := by
  unfold mixCountingBitmapIncrement at refused ⊢
  by_cases full : countTemp index (b.array (countAccess index offset)) = 0x0f#8
  · simp only [full, if_true]
  · simp only [full, if_false] at refused
    cases refused

/-- A refused decrement leaves the array as it was. -/
theorem decrement_refused (refused : (mixCountingBitmapDecrement b index offset).1 = -1) :
    (mixCountingBitmapDecrement b index offset).2 = b := by
  unfold mixCountingBitmapDecrement at refused ⊢
  by_cases empty : countTemp index (b.array (countAccess index offset)) = 0x00#8
  · simp only [empty, if_true]
  · simp only [empty, if_false] at refused
    cases refused

/-- A decrement after an increment that was not refused restores the array. -/
theorem decrement_increment (done : (mixCountingBitmapIncrement b index offset).1 = 0) :
    mixCountingBitmapDecrement (mixCountingBitmapIncrement b index offset).2 index offset =
      (0, b) := by
  have notFull : counts b offset index ≠ 15 := by
    intro full
    rw [(counts_increment b index offset).2, if_pos full] at done
    cases done
  have room : ¬ countTemp index (b.array (countAccess index offset)) = 0x0f#8 :=
    fun top => notFull ((countTemp_eq_iff (by decide)).1 top)
  have below : countHalf index (b.array (countAccess index offset)) < 15 :=
    Nat.lt_of_le_of_ne (countHalf_le _ _) notFull
  have stored : mixCountingBitmapIncrement b index offset =
      (0, { b with
        array := Function.update b.array (countAccess index offset)
          (incrementByte index (b.array (countAccess index offset))) }) := by
    simp only [mixCountingBitmapIncrement, room, if_false]
  have positive : ¬ countTemp index (incrementByte index (b.array (countAccess index offset))) =
      0x00#8 := by
    rw [← BitVec.toNat_inj, toNat_countTemp, countHalf_incrementByte below, if_pos rfl]
    simp
  rw [stored, mixCountingBitmapDecrement]
  simp only [Function.update_self, positive, if_false, decrementByte_incrementByte below,
    Function.update_idem, Function.update_eq_self]

end

/-- **After any history the array is the family of counters that the calls make on their own,
each call has answered as the family does, and refused calls and increments taken back leave
the array as it was.** -/
theorem packedCounters_refine (b : Bitmap) (calls : List CountCall) :
    let ran := answers Bitmap.countCall b calls
    let family := answers CounterFamily.call (counts b 0) calls
    counts ran.1 0 = family.1 ∧ ran.2 = family.2 ∧ (∀ i, counts ran.1 0 i ≤ 15) ∧
      ∀ index offset,
        ((mixCountingBitmapIncrement ran.1 index offset).1 = -1 →
          (mixCountingBitmapIncrement ran.1 index offset).2 = ran.1) ∧
        ((mixCountingBitmapDecrement ran.1 index offset).1 = -1 →
          (mixCountingBitmapDecrement ran.1 index offset).2 = ran.1) ∧
        ((mixCountingBitmapIncrement ran.1 index offset).1 = 0 →
          mixCountingBitmapDecrement (mixCountingBitmapIncrement ran.1 index offset).2 index offset =
            (0, ran.1)) := by
  intro ran family
  have refines : ∀ (s : Bitmap) (t : CounterFamily) c, counts s 0 = t →
      counts (s.countCall c).1 0 = (t.call c).1 ∧ (s.countCall c).2 = (t.call c).2 := by
    rintro s t c rfl
    exact countCall_refines s c
  obtain ⟨after, out⟩ := answers_refines refines rfl calls
  exact ⟨after, out, fun i => counts_le _ _ i, fun _ _ =>
    ⟨increment_refused, decrement_refused, decrement_increment⟩⟩

end Mixdk
