/-
# Queue.Core -- the ring queue of `mix_queue.c`

`mix_queue_t` is a byte array and two counters, `in` and `out`, that only grow and wrap at
2^32.  `__mix_enqueue` and `__mix_dequeue` reduce a counter with the mask, turn elements
into bytes, and copy in two parts; all of it is `unsigned int` arithmetic, so the model
uses `UInt32` and the source's own operators.
-/
import Mathlib.Tactic.Ring

namespace Mixdk

set_option autoImplicit false

/-- Bytes by address: the array of a queue, or the memory a caller hands in. -/
abbrev Bytes := Nat → UInt8

/-- `memcpy(dst + at, src + from, n)`. -/
def memcpy (dst : Bytes) (at_ : Nat) (src : Bytes) (from_ n : Nat) : Bytes := fun p =>
  if at_ ≤ p ∧ p < at_ + n then src (from_ + (p - at_)) else dst p

structure MixQueue where
  in_ : UInt32
  out : UInt32
  mask : UInt32
  esize : UInt32
  data : Bytes

/-- `min` of `mix_queue.c`. -/
def uintMin (a b : UInt32) : UInt32 := if a > b then b else a

/-- The number of the highest set bit, counted from 1; 0 has none. -/
def fls (x : UInt32) : Nat := if x = 0 then 0 else Nat.log2 x.toNat + 1

def roundupPowOfTwo (x : UInt32) : UInt32 := UInt32.ofNat (1 <<< fls (x - 1))

/-- `mix_queue_init`: `none` is a failed assertion, or the NULL it returns on `EINVAL`.
`buffer` is what `malloc` hands out. -/
def mixQueueInit (size esize : UInt32) (buffer : Bytes) : Option MixQueue :=
  if size = 0 ∨ esize = 0 then none
  else
    let size := roundupPowOfTwo (size / esize)
    if size < 2 then none
    else some
      { in_ := 0
        out := 0
        mask := size - 1
        esize := esize
        data := buffer }

/-- Where the two parts of a copy lie, in bytes: it starts at `offset`, and `first` bytes of it
come before the end of the array. -/
structure Split where
  offset : UInt32
  first : UInt32
  len : UInt32

namespace MixQueue

/-- `__mix_queue_unused`. -/
def unused (q : MixQueue) : UInt32 := q.mask + 1 - (q.in_ - q.out)

/-- The arithmetic `__mix_enqueue` and `__mix_dequeue` begin with. -/
def split (q : MixQueue) (len off : UInt32) : Split :=
  let size := q.mask + 1
  let off := off &&& q.mask
  if q.esize ≠ 1 then
    let off := off * q.esize
    let size := size * q.esize
    let len := len * q.esize
    { offset := off, first := uintMin len (size - off), len := len }
  else
    { offset := off, first := uintMin len (size - off), len := len }

/-- `__mix_enqueue`. -/
def enqueueAt (q : MixQueue) (src : Bytes) (len off : UInt32) : MixQueue :=
  let s := q.split len off
  let data := memcpy q.data s.offset.toNat src 0 s.first.toNat
  { q with data := memcpy data 0 src s.first.toNat (s.len - s.first).toNat }

/-- `__mix_dequeue`, with the memory at `dst` after it. -/
def dequeueAt (q : MixQueue) (dst : Bytes) (len off : UInt32) : Bytes :=
  let s := q.split len off
  let dst := memcpy dst 0 q.data s.offset.toNat s.first.toNat
  memcpy dst s.first.toNat q.data 0 (s.len - s.first).toNat

def mixEnqueue (q : MixQueue) (src : Bytes) (len : UInt32) : MixQueue × UInt32 :=
  let l := q.unused
  let len := if len > l then l else len
  let q := q.enqueueAt src len q.in_
  ({ q with in_ := q.in_ + len }, len)

def mixDequeue (q : MixQueue) (dst : Bytes) (len : UInt32) : MixQueue × Bytes × UInt32 :=
  let l := q.in_ - q.out
  if l = 0 then (q, dst, l)
  else
    let len := if len > l then l else len
    let dst := q.dequeueAt dst len q.out
    ({ q with out := q.out + len }, dst, len)

end MixQueue

/-! ## Sizes -/

theorem toNat_uintMin (a b : UInt32) : (uintMin a b).toNat = min a.toNat b.toNat := by
  unfold uintMin
  split
  next more =>
    rw [gt_iff_lt, UInt32.lt_iff_toNat_lt] at more
    omega
  next less =>
    rw [gt_iff_lt, UInt32.lt_iff_toNat_lt] at less
    omega

theorem toNat_two_pow {k : Nat} (small : k < 32) : (UInt32.ofNat (2 ^ k)).toNat = 2 ^ k := by
  rw [UInt32.toNat_ofNat', Nat.mod_eq_of_lt (Nat.pow_lt_pow_right (by omega) small)]

theorem toNat_two_pow_sub_one {k : Nat} (small : k < 32) :
    (UInt32.ofNat (2 ^ k) - 1).toNat = 2 ^ k - 1 := by
  rw [UInt32.toNat_sub_of_le, toNat_two_pow small]
  · rfl
  · rw [UInt32.le_iff_toNat_le, toNat_two_pow small]
    exact Nat.one_le_two_pow

theorem fls_two_pow_sub_one {k : Nat} (small : k < 32) : fls (UInt32.ofNat (2 ^ k) - 1) = k := by
  have value := toNat_two_pow_sub_one small
  unfold fls
  split
  next zero =>
    rw [zero] at value
    by_contra large
    have := Nat.pow_le_pow_right (show 0 < 2 by omega) (Nat.pos_of_ne_zero (Ne.symm large))
    simp at value
    omega
  next nonzero =>
    rw [value]
    match k with
    | 0 => exact absurd rfl nonzero
    | k + 1 =>
        congr 1
        have pos := Nat.two_pow_pos k
        rw [Nat.log2_eq_iff] <;> rw [Nat.pow_succ] <;> omega

/-- A power of two is its own rounding. -/
theorem roundupPowOfTwo_two_pow {k : Nat} (small : k < 32) :
    roundupPowOfTwo (UInt32.ofNat (2 ^ k)) = UInt32.ofNat (2 ^ k) := by
  rw [roundupPowOfTwo, fls_two_pow_sub_one small, Nat.one_shiftLeft]

end Mixdk
