/-
# Queue.Bounds -- the bytes of the array a call reaches

`mix_queue_init` allocates `size` bytes and rounds the number of elements up to a power of
two, so unless it was one already, the ring is longer than the allocation: a full queue has
elements beyond its end.  `InBounds` is about one call, with the products of the byte
arithmetic; it holds for every call of every history exactly when no rounding took place
(`mixQueue_in_bounds_iff`).
-/
import Mixdk.Queue.Fifo

namespace Mixdk

set_option autoImplicit false

open Transition (answers)

/-- Byte `p` of the array is read or written by one of the two `memcpy`s. -/
def Split.Touches (s : Split) (p : Nat) : Prop :=
  (s.offset.toNat ≤ p ∧ p < s.offset.toNat + s.first.toNat) ∨ p < (s.len - s.first).toNat

namespace MixQueue

/-- The length and the counter a call hands to `__mix_enqueue` or `__mix_dequeue`, if it comes
that far. -/
def handed (q : MixQueue) : Call → Option (UInt32 × UInt32)
  | .enqueue _ len => some (uintMin len q.unused, q.in_)
  | .dequeue _ len =>
      if q.in_ - q.out = 0 then none else some (uintMin len (q.in_ - q.out), q.out)

theorem mixEnqueue_handed {q : MixQueue} {src : Bytes} {len n off : UInt32}
    (handed : q.handed (.enqueue src len) = some (n, off)) :
    (q.mixEnqueue src len).1.data = (q.enqueueAt src n off).data := by
  rw [MixQueue.handed, Option.some.injEq, Prod.mk.injEq] at handed
  obtain ⟨rfl, rfl⟩ := handed
  rfl

theorem mixDequeue_handed {q : MixQueue} {dst : Bytes} {len n off : UInt32}
    (handed : q.handed (.dequeue dst len) = some (n, off)) :
    (q.mixDequeue dst len).2.1 = q.dequeueAt dst n off := by
  by_cases empty : q.in_ - q.out = 0
  · rw [MixQueue.handed, if_pos empty] at handed
    cases handed
  · rw [MixQueue.handed, if_neg empty, Option.some.injEq, Prod.mk.injEq] at handed
    obtain ⟨rfl, rfl⟩ := handed
    rw [mixDequeue, if_neg empty]
    rfl

/-- A call stays within `size` bytes, and the products that say where do not overflow. -/
def InBounds (size : UInt32) (q : MixQueue) (c : Call) : Prop :=
  ∀ len off, q.handed c = some (len, off) →
    (∀ p, (q.split len off).Touches p → p < size.toNat) ∧
      (off &&& q.mask).toNat * q.esize.toNat < 2 ^ 32 ∧
      (q.mask + 1).toNat * q.esize.toNat < 2 ^ 32 ∧
      len.toNat * q.esize.toNat < 2 ^ 32

end MixQueue

/-- Rounding up does not make the number smaller. -/
theorem le_two_pow_fls {x : UInt32} (positive : 0 < x.toNat) : x.toNat ≤ 2 ^ fls (x - 1) := by
  have before : (x - 1).toNat = x.toNat - 1 := by
    rw [UInt32.toNat_sub_of_le]
    · rfl
    · rw [UInt32.le_iff_toNat_le]
      exact positive
  unfold fls
  split
  next zero =>
    rw [zero] at before
    simp at before
    omega
  next nonzero =>
    have below := Nat.lt_log2_self (n := (x - 1).toNat)
    omega

/-- A queue that was returned has `2^k` elements for some `k`, and not fewer than its size has
room for. -/
theorem mixQueueInit_shape {size esize : UInt32} {buffer : Bytes} {q : MixQueue}
    (init : mixQueueInit size esize buffer = some q) :
    ∃ k, 1 ≤ k ∧ k < 32 ∧ q.mask = UInt32.ofNat (2 ^ k) - 1 ∧ q.in_ = 0 ∧ q.out = 0 ∧
      q.esize = esize ∧ 0 < esize.toNat ∧
      2 ≤ size.toNat / esize.toNat ∧ size.toNat / esize.toNat ≤ 2 ^ k := by
  by_cases invalid : size = 0 ∨ esize = 0
  · rw [mixQueueInit, if_pos invalid] at init
    cases init
  by_cases small : roundupPowOfTwo (size / esize) < 2
  · rw [mixQueueInit, if_neg invalid, if_pos small] at init
    cases init
  rw [mixQueueInit, if_neg invalid, if_neg small, Option.some.injEq] at init
  have positive : 0 < esize.toNat :=
    Nat.pos_of_ne_zero fun zero => invalid (.inr (UInt32.toNat_inj.1 zero))
  obtain ⟨k, log⟩ : ∃ k, k = fls (size / esize - 1) := ⟨_, rfl⟩
  have rounded : roundupPowOfTwo (size / esize) = UInt32.ofNat (2 ^ k) := by
    rw [roundupPowOfTwo, Nat.one_shiftLeft, log]
  have value : 2 ≤ 2 ^ k % 2 ^ 32 := by
    rw [UInt32.lt_iff_toNat_lt, rounded, UInt32.toNat_ofNat'] at small
    exact Nat.not_lt.1 small
  have bits : k < 32 := by
    by_contra large
    rw [Nat.mod_eq_zero_of_dvd (Nat.pow_dvd_pow 2 (Nat.not_lt.1 large))] at value
    omega
  have some_ : 1 ≤ k := by
    by_contra none_
    obtain rfl : k = 0 := by omega
    simp at value
  -- Rounding none up gives 2^32, and rounding one up gives one.
  have two : 2 ≤ (size / esize).toNat := by
    by_contra few
    have cases_ : size / esize = 0 ∨ size / esize = 1 := by
      rcases (show (size / esize).toNat = 0 ∨ (size / esize).toNat = 1 by omega) with none_ | one
      · exact .inl (UInt32.toNat_inj.1 none_)
      · exact .inr (UInt32.toNat_inj.1 one)
    rcases cases_ with none_ | one
    · rw [none_, show fls (0 - 1) = 32 by decide] at log
      omega
    · rw [one, show fls (1 - 1) = 0 by decide] at log
      omega
  refine ⟨k, some_, bits, ?_⟩
  rw [← init, ← rounded, ← UInt32.toNat_div]
  refine ⟨rfl, rfl, rfl, rfl, positive, two, ?_⟩
  rw [log]
  exact le_two_pow_fls (by omega)

/-! ## A power of two -/

/-- A call on a queue that stores what a FIFO stores stays within the ring. -/
theorem Stores.inBounds {k esize gone : Nat} {q : MixQueue} {xs : List Element} {size : UInt32}
    (stores : Stores k esize q gone xs) (fits : 2 ^ k * esize ≤ size.toNat) (c : Call) :
    q.InBounds size c := by
  intro len off handed
  have room : len.toNat ≤ 2 ^ k := by
    cases c with
    | enqueue src wanted =>
        rw [MixQueue.handed, Option.some.injEq, Prod.mk.injEq] at handed
        rw [← handed.1, toNat_uintMin, stores.unused_eq]
        exact Nat.le_trans (Nat.min_le_right _ _) (Nat.sub_le _ _)
    | dequeue dst wanted =>
        have stored := stores.room
        rw [MixQueue.handed] at handed
        split at handed
        next => cases handed
        next =>
          rw [Option.some.injEq, Prod.mk.injEq] at handed
          rw [← handed.1, toNat_uintMin, stores.sub_eq]
          omega
  have bytes := stores.shape.fits
  have slot := stores.shape.start_lt off
  have whole := Nat.mul_le_mul_right q.esize.toNat room
  obtain ⟨offset, first, rest⟩ := stores.shape.split_spec off room
  refine ⟨fun p touched => ?_, ?_, ?_, by omega⟩
  · rw [Split.Touches, offset, rest, first] at touched
    rw [← stores.bytes] at fits
    omega
  · rw [stores.shape.and_mask]
    omega
  · rw [stores.shape.size]
    exact bytes

/-! ## No power of two -/

/-- A full ring has to fit: enqueueing as much as a new queue takes reaches its last byte. -/
theorem ring_fits {k : Nat} {q : MixQueue} {size : UInt32} (bits : k < 32)
    (mask : q.mask = UInt32.ofNat (2 ^ k) - 1) (in_ : q.in_ = 0) (out : q.out = 0)
    (positive : 0 < q.esize.toNat)
    (inBounds : q.InBounds size (.enqueue (fun _ => 0) (q.mask + 1))) :
    2 ^ k * q.esize.toNat ≤ size.toNat := by
  have elements : (q.mask + 1).toNat = 2 ^ k := by
    rw [mask, UInt32.sub_add_cancel, toNat_two_pow bits]
  have handed : q.handed (.enqueue (fun _ => 0) (q.mask + 1)) = some (q.mask + 1, 0) := by
    have unused : q.unused = q.mask + 1 := by
      rw [MixQueue.unused, in_, out, UInt32.sub_self, UInt32.sub_zero]
    rw [MixQueue.handed, unused, uintMin, ite_self, in_]
  obtain ⟨touched, -, product, -⟩ := inBounds _ _ handed
  rw [elements] at product
  have shape : q.Shape k := ⟨mask, positive, product⟩
  have bytes : 0 < 2 ^ k * q.esize.toNat := Nat.mul_pos (Nat.two_pow_pos k) positive
  obtain ⟨offset, first, -⟩ := shape.split_spec 0 (Nat.le_of_eq elements)
  have start : (q.split (q.mask + 1) 0).offset.toNat = 0 := by simp [offset]
  have length : (q.split (q.mask + 1) 0).first.toNat = 2 ^ k * q.esize.toNat := by
    simp [first, elements]
  have last := touched (2 ^ k * q.esize.toNat - 1) (.inl (by rw [start, length]; omega))
  omega

/-- **Every call of every history stays within the allocation exactly when the size is a power
of two of elements.** -/
theorem mixQueue_in_bounds_iff {size esize : UInt32} {buffer : Bytes} {q : MixQueue}
    (init : mixQueueInit size esize buffer = some q) :
    (∀ (calls : List Call) (c : Call), (answers MixQueue.call q calls).1.InBounds size c) ↔
      ∃ k, size.toNat / esize.toNat = 2 ^ k := by
  obtain ⟨k, some_, bits, mask, in_, out, esize_, positive, two, least⟩ := mixQueueInit_shape init
  constructor
  · intro inBounds
    have fits := ring_fits bits mask in_ out (esize_ ▸ positive) (inBounds [] _)
    rw [esize_] at fits
    exact ⟨k, Nat.le_antisymm least ((Nat.le_div_iff_mul_le positive).2 fits)⟩
  · rintro ⟨j, capacity⟩ calls c
    have large : 1 ≤ j := by
      by_contra none_
      obtain rfl : j = 0 := by omega
      omega
    obtain ⟨q', init', start⟩ := mixQueueInit_stores large capacity buffer
    obtain rfl : q = q' := Option.some.inj (init.symm.trans init')
    obtain ⟨⟨gone, stores⟩, -⟩ := Transition.answers_refines
      (R := fun q xs => ∃ gone, Stores j esize.toNat q gone xs)
      (fun q xs c ⟨gone, stores⟩ => stores.call_refines c) ⟨0, start⟩ calls
    refine stores.inBounds ?_ c
    rw [← capacity]
    exact Nat.div_mul_le_self _ _

/-- Two elements of five bytes. -/
theorem mixQueue_in_bounds_iff_of_two :
    (∀ (calls : List Call) (c : Call),
      (answers MixQueue.call
        { in_ := 0, out := 0, mask := 1, esize := 5, data := fun _ => 0 } calls).1.InBounds 13 c) ↔
      ∃ k, (13 : UInt32).toNat / (5 : UInt32).toNat = 2 ^ k :=
  @mixQueue_in_bounds_iff 13 5 (fun _ => 0) _ rfl

/-- Three elements of one byte: the fourth goes beyond the end. -/
theorem mixQueue_out_of_bounds :
    ∃ q, mixQueueInit 3 1 (fun _ => 0) = some q ∧ ¬ q.InBounds 3 (.enqueue (fun _ => 0) 4) := by
  refine ⟨_, rfl, fun inBounds => ?_⟩
  have last := (inBounds 4 0 rfl).1 3 (.inl (by decide))
  exact absurd last (by decide)

end Mixdk
