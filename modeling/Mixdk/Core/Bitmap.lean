/-
# Core.Bitmap -- the free-slot bitmap of a segment

`mix_bitmap.c`, the plain bitmap.  Bit `nr` is bit `nr & 7` of byte `nr >> 3`.
`bytes` is the number of bytes the search uses; `mix_bitmap_init` sets it to an
eighth of its argument.  `next_bit` is the hint at which the search for a zero
bit starts.

`mix_bitmap_next_zero_bit` goes round the bitmap until it meets a zero bit.  On
a full bitmap the C loop never ends, and with no usable byte its `%` and `/`
trap; the model returns `none` in both cases.
-/
import Mixdk.Core.Task
import Mixdk.Lib.CyclicSearch

namespace Mixdk

set_option autoImplicit false

open CyclicSearch

/-- `mix_bitmap_t`.  The array is the allocation, one byte for each index. -/
structure Bitmap where
  array : Nat → BitVec 8
  bytes : Nat
  nextBit : Nat

/-- Number of usable bits, `bitmap->bytes * BITS_PER_BYTE`. -/
def Bitmap.bits (b : Bitmap) : Nat := b.bytes * 8

def mixBitmapInit (bytes : Nat) : Bitmap :=
  { array := fun _ => 0#8, bytes := bytes / 8, nextBit := 0 }

/-- `1 << (nr & 0x07)`. -/
def bitMask (nr : Nat) : BitVec 8 := 1#8 <<< (nr % 8)

def mixBitmapTestBit (b : Bitmap) (nr : Nat) : Bool := (bitMask nr &&& b.array (nr / 8)) != 0#8

/-- Returns the old value of the bit. -/
def mixBitmapSetBit (b : Bitmap) (nr : Nat) : Bool × Bitmap :=
  ((bitMask nr &&& b.array (nr / 8)) != 0#8,
    { b with array := Function.update b.array (nr / 8) (b.array (nr / 8) ||| bitMask nr) })

/-- Returns the old value of the bit. -/
def mixBitmapClearBit (b : Bitmap) (nr : Nat) : Bool × Bitmap :=
  ((bitMask nr &&& b.array (nr / 8)) != 0#8,
    { b with array := Function.update b.array (nr / 8) (b.array (nr / 8) &&& ~~~ bitMask nr) })

def mixBitmapClear (b : Bitmap) : Bitmap :=
  { b with array := fun i => if i < b.bytes then 0#8 else b.array i, nextBit := 0 }

/-- The common end of both branches of `mix_bitmap_next_zero_bit`. -/
def takeZeroBit (b : Bitmap) (nextZeroBit : Nat) : Int × Bitmap :=
  match mixBitmapSetBit b nextZeroBit with
  | (false, b) => (nextZeroBit, { b with nextBit := (nextZeroBit + 1) / b.bits })
  | (true, b) => (-1, b)

def mixBitmapNextZeroBit (b : Bitmap) : Option (Int × Bitmap) :=
  if b.bits = 0 then none
  else if !mixBitmapTestBit b b.nextBit then some (takeZeroBit b b.nextBit)
  else (cyclicFind (mixBitmapTestBit b) b.bits b.bits b.nextBit).map (takeZeroBit b)

/-! ## The bitmap as a set of numbers -/

theorem bitMask_getLsbD (nr i : Nat) : (bitMask nr).getLsbD i = decide (i = nr % 8) := by
  have small : nr % 8 < 8 := Nat.mod_lt _ (by omega)
  unfold bitMask
  simp only [BitVec.getLsbD_shiftLeft, BitVec.getLsbD_one]
  by_cases h : i = nr % 8 <;> simp [h] <;> omega

theorem bitMask_and_ne_zero (nr : Nat) (x : BitVec 8) :
    ((bitMask nr &&& x) != 0#8) = x.getLsbD (nr % 8) := by
  rw [Bool.eq_iff_iff, bne_iff_ne]
  constructor
  · intro nonzero
    by_contra clear
    apply nonzero
    apply BitVec.eq_of_getLsbD_eq
    intro i _
    rw [BitVec.getLsbD_and, bitMask_getLsbD]
    by_cases h : i = nr % 8
    · subst h; simpa using clear
    · simp [h]
  · intro set zero
    have := congrArg (fun y => y.getLsbD (nr % 8)) zero
    simp [BitVec.getLsbD_and, bitMask_getLsbD, set] at this

theorem testBit_eq (b : Bitmap) (nr : Nat) :
    mixBitmapTestBit b nr = (b.array (nr / 8)).getLsbD (nr % 8) :=
  bitMask_and_ne_zero nr _

/-- Two bit numbers in one byte are the same number as soon as their positions agree. -/
private theorem same_bit_iff {i j : Nat} (sameByte : j / 8 = i / 8) :
    j % 8 = i % 8 ↔ j = i := by omega

@[simp] theorem setBit_old (b : Bitmap) (nr : Nat) :
    (mixBitmapSetBit b nr).1 = mixBitmapTestBit b nr := rfl

@[simp] theorem setBit_bytes (b : Bitmap) (nr : Nat) :
    (mixBitmapSetBit b nr).2.bytes = b.bytes := rfl

@[simp] theorem setBit_bits (b : Bitmap) (nr : Nat) :
    (mixBitmapSetBit b nr).2.bits = b.bits := rfl

@[simp] theorem setBit_nextBit (b : Bitmap) (nr : Nat) :
    (mixBitmapSetBit b nr).2.nextBit = b.nextBit := rfl

/-- Setting a bit inserts its number. -/
@[simp] theorem testBit_setBit (b : Bitmap) (i j : Nat) :
    mixBitmapTestBit (mixBitmapSetBit b i).2 j = (decide (j = i) || mixBitmapTestBit b j) := by
  simp only [testBit_eq, mixBitmapSetBit, Function.update_apply]
  by_cases sameByte : j / 8 = i / 8
  · simp only [sameByte, if_true, BitVec.getLsbD_or, bitMask_getLsbD, same_bit_iff sameByte]
    rw [Bool.or_comm]
  · have : j ≠ i := fun e => sameByte (by rw [e])
    simp [sameByte, this]

@[simp] theorem clearBit_bits (b : Bitmap) (nr : Nat) :
    (mixBitmapClearBit b nr).2.bits = b.bits := rfl

@[simp] theorem clearBit_nextBit (b : Bitmap) (nr : Nat) :
    (mixBitmapClearBit b nr).2.nextBit = b.nextBit := rfl

/-- Clearing a bit removes its number. -/
@[simp] theorem testBit_clearBit (b : Bitmap) (i j : Nat) :
    mixBitmapTestBit (mixBitmapClearBit b i).2 j = (decide (j ≠ i) && mixBitmapTestBit b j) := by
  simp only [testBit_eq, mixBitmapClearBit, Function.update_apply]
  by_cases sameByte : j / 8 = i / 8
  · have inByte : j % 8 < 8 := Nat.mod_lt _ (by omega)
    simp only [sameByte, if_true, BitVec.getLsbD_and, BitVec.getLsbD_not, bitMask_getLsbD,
      same_bit_iff sameByte, inByte, decide_true, Bool.true_and, decide_not]
    rw [Bool.and_comm]
  · have : j ≠ i := fun e => sameByte (by rw [e])
    simp [sameByte, this]

@[simp] theorem clear_bits (b : Bitmap) : (mixBitmapClear b).bits = b.bits := rfl

@[simp] theorem clear_nextBit (b : Bitmap) : (mixBitmapClear b).nextBit = 0 := rfl

/-- `mix_bitmap_clear` empties the set of usable bits. -/
theorem testBit_clear (b : Bitmap) {j : Nat} (usable : j < b.bits) :
    mixBitmapTestBit (mixBitmapClear b) j = false := by
  have : j / 8 < b.bytes := by simp only [Bitmap.bits] at usable; omega
  simp [testBit_eq, mixBitmapClear, this]

/-- It leaves the bits beyond alone. -/
theorem testBit_clear_of_le (b : Bitmap) {j : Nat} (beyond : b.bits ≤ j) :
    mixBitmapTestBit (mixBitmapClear b) j = mixBitmapTestBit b j := by
  have : ¬ j / 8 < b.bytes := by simp only [Bitmap.bits] at beyond; omega
  simp [testBit_eq, mixBitmapClear, this]

@[simp] theorem testBit_init (n j : Nat) : mixBitmapTestBit (mixBitmapInit n) j = false := by
  simp [testBit_eq, mixBitmapInit]

/-! ## The search for a zero bit -/

/-- Both branches of the C function are one search from the hint. -/
theorem nextZeroBit_eq_search (b : Bitmap) (hint : b.nextBit < b.bits) :
    mixBitmapNextZeroBit b =
      (cyclicFind (mixBitmapTestBit b) b.bits b.bits b.nextBit).map (takeZeroBit b) := by
  unfold mixBitmapNextZeroBit
  rw [if_neg (by omega)]
  cases clear : mixBitmapTestBit b b.nextBit with
  | true => simp
  | false =>
      obtain ⟨n, hn⟩ : ∃ n, b.bits = n + 1 := ⟨b.bits - 1, by omega⟩
      have : cyclicFind (mixBitmapTestBit b) b.bits b.bits b.nextBit = some b.nextBit := by
        rw [show cyclicFind (mixBitmapTestBit b) b.bits b.bits b.nextBit =
          cyclicFind (mixBitmapTestBit b) b.bits (n + 1) b.nextBit by rw [hn]]
        simp [cyclicFind, clear]
      simp [this]

/-- The search does not end exactly when the bitmap is full. -/
theorem nextZeroBit_none_iff (b : Bitmap) (hint : b.nextBit < b.bits) :
    mixBitmapNextZeroBit b = none ↔ ∀ i < b.bits, mixBitmapTestBit b i = true := by
  rw [nextZeroBit_eq_search b hint, Option.map_eq_none_iff, cyclicFind_none_iff hint]

/-- What `takeZeroBit` makes of a clear bit. -/
theorem takeZeroBit_of_clear {b : Bitmap} {v : Nat} (clear : mixBitmapTestBit b v = false) :
    takeZeroBit b v =
      ((v : Int), { (mixBitmapSetBit b v).2 with nextBit := (v + 1) / b.bits }) := by
  have old : (mixBitmapSetBit b v).1 = false := by rw [setBit_old, clear]
  unfold takeZeroBit
  split
  · rename_i b' eq
    rw [eq]
    have : b'.bits = b.bits := by rw [← setBit_bits b v, eq]
    simp [this]
  · rename_i b' eq
    rw [eq] at old
    cases old

/-- The bit found is the first clear one going round from the hint. -/
theorem nextZeroBit_some {b b' : Bitmap} {z : Int} (hint : b.nextBit < b.bits)
    (found : mixBitmapNextZeroBit b = some (z, b')) :
    ∃ d < b.bits, ∃ v, v = (b.nextBit + d) % b.bits ∧ z = (v : Int) ∧ v < b.bits ∧
      mixBitmapTestBit b v = false ∧
      (∀ e < d, mixBitmapTestBit b ((b.nextBit + e) % b.bits) = true) ∧
      b' = { (mixBitmapSetBit b v).2 with nextBit := (v + 1) / b.bits } := by
  rw [nextZeroBit_eq_search b hint, Option.map_eq_some_iff] at found
  obtain ⟨v, search, taken⟩ := found
  obtain ⟨d, below, at_, clear, before⟩ := cyclicFind_eq_some hint search
  rw [takeZeroBit_of_clear clear, Prod.mk.injEq] at taken
  refine ⟨d, below, v, at_, taken.1.symm, ?_, clear, before, taken.2.symm⟩
  rw [at_]
  exact Nat.mod_lt _ (by omega)

end Mixdk
