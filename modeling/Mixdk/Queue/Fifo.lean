/-
# Queue.Fifo -- the ring queue is a bounded FIFO

`Fifo` is what the queue is for: a list of elements, of which at most `cap` are stored.
`Stores q k at xs` relates a queue of `2^k` elements to such a list: `at` counts the
elements dequeued so far, `out` and `in` are `at` and `at + xs.length` modulo 2^32, and the
bytes of `xs` lie in the ring from there on.  As `2^k` divides 2^32, wrapping moves nothing.

Every call of the queue answers what the FIFO answers (`call_refines`); so does every
sequence of calls (`mixQueue_refines_fifo`).
-/
import Mixdk.Lib.Ring
import Mixdk.Lib.Transition
import Mixdk.Queue.Core

namespace Mixdk

set_option autoImplicit false

open Transition (answers)

/-- The bytes of one element. -/
abbrev Element := List UInt8

/-- The element of `esize` bytes at byte `at_`. -/
def elementAt (esize : Nat) (bytes : Bytes) (at_ : Nat) : Element :=
  (List.range esize).map fun b => bytes (at_ + b)

/-- The first `n` elements at `src`. -/
def elements (esize : Nat) (src : Bytes) (n : Nat) : List Element :=
  (List.range n).map fun i => elementAt esize src (i * esize)

/-- Memory with `bytes` written over its start. -/
def overlay (dst : Bytes) (bytes : List UInt8) : Bytes := fun p => bytes[p]?.getD (dst p)

/-! ## What the queue is for -/

/-- A call, with the memory and the number of elements it is given. -/
inductive Call
  | enqueue (src : Bytes) (len : UInt32)
  | dequeue (dst : Bytes) (len : UInt32)

/-- What a caller sees: the number returned, and the memory at `dst`. -/
inductive Outcome
  | enqueued (n : Nat)
  | dequeued (n : Nat) (dst : Bytes)

/-- A FIFO of at most `cap` elements of `esize` bytes. -/
def Fifo.call (cap esize : Nat) (xs : List Element) : Call → List Element × Outcome
  | .enqueue src len =>
      let n := min len.toNat (cap - xs.length)
      (xs ++ elements esize src n, .enqueued n)
  | .dequeue dst len =>
      let n := min len.toNat xs.length
      (xs.drop n, .dequeued n (overlay dst (xs.take n).flatten))

namespace MixQueue

def call (q : MixQueue) : Call → MixQueue × Outcome
  | .enqueue src len =>
      let (q, n) := q.mixEnqueue src len
      (q, .enqueued n.toNat)
  | .dequeue dst len =>
      let (q, dst, n) := q.mixDequeue dst len
      (q, .dequeued n.toNat dst)

/-- The element that counter value `pos` picks. -/
def element (q : MixQueue) (pos : UInt32) : Element :=
  elementAt q.esize.toNat q.data ((pos &&& q.mask).toNat * q.esize.toNat)

/-- The stored elements, `in - out` of them, oldest first. -/
def contents (q : MixQueue) : List Element :=
  (List.range (q.in_ - q.out).toNat).map fun i => q.element (q.out + UInt32.ofNat i)

end MixQueue

/-! ## Elements and bytes -/

@[simp] theorem length_elementAt (esize : Nat) (bytes : Bytes) (at_ : Nat) :
    (elementAt esize bytes at_).length = esize := by
  simp [elementAt]

@[simp] theorem length_elements (esize : Nat) (src : Bytes) (n : Nat) :
    (elements esize src n).length = n := by
  simp [elements]

theorem elements_succ (esize : Nat) (src : Bytes) (n : Nat) :
    elements esize src (n + 1) = elements esize src n ++ [elementAt esize src (n * esize)] := by
  simp [elements, List.range_succ]

theorem length_of_mem_elements {esize n : Nat} {src : Bytes} {x : Element}
    (member : x ∈ elements esize src n) : x.length = esize := by
  obtain ⟨i, -, rfl⟩ := List.mem_map.1 member
  simp

@[simp] theorem overlay_nil (dst : Bytes) : overlay dst [] = dst := rfl

theorem flatten_elements (esize : Nat) (src : Bytes) (n : Nat) :
    (elements esize src n).flatten = (List.range (n * esize)).map src := by
  induction n with
  | zero => simp [elements]
  | succ n ih =>
      rw [elements_succ, List.flatten_append, ih, Nat.succ_mul, List.range_add, List.map_append]
      simp [elementAt, Function.comp_def]

/-! ## The shape of a queue -/

/-- `2^k` elements, whose bytes a `uint32_t` counts. -/
structure MixQueue.Shape (q : MixQueue) (k : Nat) : Prop where
  mask : q.mask = UInt32.ofNat (2 ^ k) - 1
  esize : 0 < q.esize.toNat
  fits : 2 ^ k * q.esize.toNat < 2 ^ 32

namespace MixQueue.Shape

variable {q : MixQueue} {k : Nat}

theorem bits (shape : q.Shape k) : k < 32 := by
  have fits := shape.fits
  have le := Nat.le_mul_of_pos_right (2 ^ k) shape.esize
  exact (Nat.pow_lt_pow_iff_right (by omega)).1 (Nat.lt_of_le_of_lt le fits)

theorem divides (shape : q.Shape k) : 2 ^ k ∣ 2 ^ 32 := Nat.pow_dvd_pow 2 (Nat.le_of_lt shape.bits)

theorem size (shape : q.Shape k) : (q.mask + 1).toNat = 2 ^ k := by
  rw [shape.mask, UInt32.sub_add_cancel, toNat_two_pow shape.bits]

theorem and_mask (shape : q.Shape k) (pos : UInt32) : (pos &&& q.mask).toNat = pos.toNat % 2 ^ k := by
  rw [UInt32.toNat_and, shape.mask, toNat_two_pow_sub_one shape.bits,
    Nat.and_two_pow_sub_one_eq_mod]

section Counters

variable {gone n : Nat} (out : q.out.toNat = gone % 2 ^ 32)
  (in_ : q.in_.toNat = (gone + n) % 2 ^ 32) (room : n ≤ 2 ^ k)

include out in_ room

/-- The difference of the counters, though they wrapped. -/
theorem sub_eq (shape : q.Shape k) : (q.in_ - q.out).toNat = n := by
  have below : 2 ^ k < 2 ^ 32 := Nat.pow_lt_pow_right (by omega) shape.bits
  rw [UInt32.toNat_sub, out, in_, Nat.add_comm]
  exact Ring.sub_wrap (Nat.lt_of_le_of_lt room below)

theorem unused_eq (shape : q.Shape k) : q.unused.toNat = 2 ^ k - n := by
  have stored := shape.sub_eq out in_ room
  have le : q.in_ - q.out ≤ q.mask + 1 := by
    rw [UInt32.le_iff_toNat_le, stored, shape.size]
    exact room
  rw [unused, UInt32.toNat_sub_of_le _ _ le, stored, shape.size]

end Counters

/-- The slot `i` elements on from a counter, though it wrapped. -/
theorem slot_eq (shape : q.Shape k) {pos : UInt32} {counter : Nat}
    (at_ : pos.toNat = counter % 2 ^ 32) (i : Nat) :
    ((pos + UInt32.ofNat i) &&& q.mask).toNat = (counter + i) % 2 ^ k := by
  rw [shape.and_mask, UInt32.toNat_add, UInt32.toNat_ofNat', at_, ← Nat.add_mod]
  exact Ring.mod_of_wrap shape.divides _

/-- A product of an element count with `esize` does not overflow. -/
theorem toNat_mul (shape : q.Shape k) {n : UInt32} (room : n.toNat ≤ 2 ^ k) :
    (n * q.esize).toNat = n.toNat * q.esize.toNat := by
  have fits := shape.fits
  have le := Nat.mul_le_mul_right q.esize.toNat room
  rw [UInt32.toNat_mul, Nat.mod_eq_of_lt (by omega)]

theorem split_eq (q : MixQueue) (len off : UInt32) : q.split len off =
    { offset := (off &&& q.mask) * q.esize
      first := uintMin (len * q.esize) ((q.mask + 1) * q.esize - (off &&& q.mask) * q.esize)
      len := len * q.esize } := by
  unfold split
  split
  · rfl
  · have one : q.esize = 1 := by simpa using ‹¬ q.esize ≠ 1›
    simp [one]

/-- What the byte arithmetic comes to: `first` bytes up to the end, and the others. -/
theorem split_spec (shape : q.Shape k) {len : UInt32} (off : UInt32) (room : len.toNat ≤ 2 ^ k) :
    (q.split len off).offset.toNat = off.toNat % 2 ^ k * q.esize.toNat ∧
      (q.split len off).first.toNat = min (len.toNat * q.esize.toNat)
        (2 ^ k * q.esize.toNat - off.toNat % 2 ^ k * q.esize.toNat) ∧
      ((q.split len off).len - (q.split len off).first).toNat =
        len.toNat * q.esize.toNat - (q.split len off).first.toNat := by
  have start : (off &&& q.mask).toNat < 2 ^ k := by
    rw [shape.and_mask]
    exact Nat.mod_lt _ (Nat.two_pow_pos k)
  have offset := shape.toNat_mul (Nat.le_of_lt start)
  have size := shape.toNat_mul (Nat.le_of_eq shape.size)
  have bytes := shape.toNat_mul room
  have less : (off &&& q.mask) * q.esize ≤ (q.mask + 1) * q.esize := by
    rw [UInt32.le_iff_toNat_le, offset, size, shape.size]
    exact Nat.mul_le_mul_right _ (Nat.le_of_lt start)
  have first : (q.split len off).first.toNat = min (len.toNat * q.esize.toNat)
      (2 ^ k * q.esize.toNat - off.toNat % 2 ^ k * q.esize.toNat) := by
    rw [split_eq, toNat_uintMin, UInt32.toNat_sub_of_le _ _ less, offset, size, bytes, shape.size,
      shape.and_mask]
  refine ⟨?_, first, ?_⟩
  · rw [split_eq, offset, shape.and_mask]
  · have length : (q.split len off).len.toNat = len.toNat * q.esize.toNat := by rw [split_eq, bytes]
    have le : (q.split len off).first ≤ (q.split len off).len := by
      rw [UInt32.le_iff_toNat_le, first, length]
      exact Nat.min_le_left _ _
    rw [UInt32.toNat_sub_of_le _ _ le, length]

theorem start_lt (shape : q.Shape k) (off : UInt32) :
    off.toNat % 2 ^ k * q.esize.toNat < 2 ^ k * q.esize.toNat :=
  Nat.mul_lt_mul_of_pos_right (Nat.mod_lt _ (Nat.two_pow_pos k)) shape.esize

/-- `__mix_enqueue` copies `len` elements round the ring, and nothing else. -/
theorem enqueueAt_spec (shape : q.Shape k) (src : Bytes) {len : UInt32} (off : UInt32)
    (room : len.toNat ≤ 2 ^ k) :
    (∀ t < len.toNat * q.esize.toNat, (q.enqueueAt src len off).data
        ((off.toNat * q.esize.toNat + t) % (2 ^ k * q.esize.toNat)) = src t) ∧
      ∀ p < 2 ^ k * q.esize.toNat, (∀ t < len.toNat * q.esize.toNat,
        p ≠ (off.toNat * q.esize.toNat + t) % (2 ^ k * q.esize.toNat)) →
        (q.enqueueAt src len off).data p = q.data p := by
  obtain ⟨offset, first, rest⟩ := shape.split_spec off room
  have whole := Nat.mul_le_mul_right q.esize.toNat room
  have parts (p : Nat) : (q.enqueueAt src len off).data p =
      if p < len.toNat * q.esize.toNat - (q.split len off).first.toNat
        then src ((q.split len off).first.toNat + p)
      else if off.toNat % 2 ^ k * q.esize.toNat ≤ p ∧
          p < off.toNat % 2 ^ k * q.esize.toNat + (q.split len off).first.toNat
        then src (p - off.toNat % 2 ^ k * q.esize.toNat) else q.data p := by
    simp [enqueueAt, memcpy, rest, offset]
  have copied := Ring.split_copy q.data _ src (shape.start_lt off) whole first parts
  simpa only [Ring.slot_start] using copied

/-- `__mix_dequeue` copies `len` elements round the ring to `dst`, and nothing else. -/
theorem dequeueAt_spec (shape : q.Shape k) (dst : Bytes) {len : UInt32} (off : UInt32)
    (room : len.toNat ≤ 2 ^ k) (p : Nat) :
    q.dequeueAt dst len off p = if p < len.toNat * q.esize.toNat
      then q.data ((off.toNat * q.esize.toNat + p) % (2 ^ k * q.esize.toNat)) else dst p := by
  obtain ⟨offset, first, rest⟩ := shape.split_spec off room
  have whole := Nat.mul_le_mul_right q.esize.toNat room
  have copied := Ring.split_read q.data dst (shape.start_lt off) whole first p
  simpa [dequeueAt, memcpy, rest, offset, Ring.slot_start] using copied

end MixQueue.Shape

/-! ## The relation between the queue and the FIFO -/

/-- The ring holds the elements `xs`, after `gone` others. -/
structure Stores (k esize : Nat) (q : MixQueue) (gone : Nat) (xs : List Element) : Prop where
  shape : q.Shape k
  bytes : q.esize.toNat = esize
  out : q.out.toNat = gone % 2 ^ 32
  in_ : q.in_.toNat = (gone + xs.length) % 2 ^ 32
  room : xs.length ≤ 2 ^ k
  whole : ∀ x ∈ xs, x.length = esize
  held : Ring.Holds (2 ^ k * esize) q.data (gone * esize) xs.flatten

namespace Stores

variable {k esize gone : Nat} {q : MixQueue} {xs : List Element}

/-- **`in - out` is the number of stored elements.** -/
theorem sub_eq (stores : Stores k esize q gone xs) : (q.in_ - q.out).toNat = xs.length :=
  stores.shape.sub_eq stores.out stores.in_ stores.room

theorem unused_eq (stores : Stores k esize q gone xs) : q.unused.toNat = 2 ^ k - xs.length :=
  stores.shape.unused_eq stores.out stores.in_ stores.room

/-- A counter modulo 2^32 picks the cells that the counter picks. -/
theorem cell_of_wrap (shape : q.Shape k) (counter t : Nat) :
    (counter % 2 ^ 32 * esize + t) % (2 ^ k * esize) = (counter * esize + t) % (2 ^ k * esize) := by
  rw [← Ring.slot_start, Ring.mod_of_wrap shape.divides, Ring.slot_start]

/-- The list is what the array holds between the counters. -/
theorem contents_eq (stores : Stores k esize q gone xs) : q.contents = xs := by
  apply List.ext_getElem
  · simp [MixQueue.contents, stores.sub_eq]
  intro i _ inside
  have whole := stores.whole _ (List.getElem_mem inside)
  apply List.ext_getElem
  · simp [MixQueue.contents, MixQueue.element, stores.bytes, whole]
  intro b _ byte
  have short : b < esize := by omega
  have at_ : xs.flatten[i * esize + b]? = some xs[i][b] := by
    rw [Ring.getElem?_flatten stores.whole short, List.getElem?_eq_getElem inside]
    exact List.getElem?_eq_getElem byte
  have held := stores.held _ _ at_
  have cell : gone * esize + (i * esize + b) = (gone + i) * esize + b := by ring
  rw [cell, Ring.slot_cell short (Nat.two_pow_pos k)] at held
  simp [MixQueue.contents, MixQueue.element, elementAt, stores.shape.slot_eq stores.out, stores.bytes,
    held]

/-- `mix_enqueue` appends what fits. -/
theorem mixEnqueue (stores : Stores k esize q gone xs) (src : Bytes) (len : UInt32) :
    Stores k esize (q.mixEnqueue src len).1 gone
        (xs ++ elements esize src (min len.toNat (2 ^ k - xs.length))) ∧
      (q.mixEnqueue src len).2.toNat = min len.toNat (2 ^ k - xs.length) := by
  have number : (q.mixEnqueue src len).2.toNat = min len.toNat (2 ^ k - xs.length) :=
    (toNat_uintMin _ _).trans (by rw [stores.unused_eq])
  refine ⟨?_, number⟩
  generalize count : min len.toNat (2 ^ k - xs.length) = n at number ⊢
  have room := stores.room
  have fits : xs.length + n ≤ 2 ^ k := by omega
  have bytes : (xs.length + n) * esize ≤ 2 ^ k * esize := Nat.mul_le_mul_right _ fits
  rw [Nat.add_mul] at bytes
  have length := Ring.length_flatten stores.whole
  have small : (q.mixEnqueue src len).2.toNat ≤ 2 ^ k := by omega
  obtain ⟨copied, kept⟩ := stores.shape.enqueueAt_spec src q.in_ small
  rw [number, stores.bytes] at copied kept
  -- the cells the copy goes to come right after those of `xs`
  have after (t : Nat) : (q.in_.toNat * esize + t) % (2 ^ k * esize) =
      (gone * esize + (xs.length * esize + t)) % (2 ^ k * esize) := by
    rw [stores.in_, cell_of_wrap stores.shape, Nat.add_mul, Nat.add_assoc]
  have old : Ring.Holds (2 ^ k * esize) (q.mixEnqueue src len).1.data (gone * esize) xs.flatten := by
    apply stores.held.congr
    intro i inside
    apply kept _ (Nat.mod_lt _ (by omega))
    intro t new same
    rw [after] at same
    have := Ring.cell_inj (by omega) (by omega) same
    omega
  have new : Ring.Holds (2 ^ k * esize) (q.mixEnqueue src len).1.data
      (gone * esize + xs.flatten.length) (elements esize src n).flatten := by
    intro i x at_
    rw [flatten_elements] at at_
    obtain ⟨inside, rfl⟩ := List.getElem?_eq_some_iff.1 at_
    have short : i < n * esize := by simpa using inside
    rw [length, Nat.add_assoc, ← after, List.getElem_map, List.getElem_range]
    exact copied i short
  exact
    { shape := ⟨stores.shape.mask, stores.shape.esize, stores.shape.fits⟩
      bytes := stores.bytes
      out := stores.out
      in_ := by
        have step : (q.mixEnqueue src len).1.in_ = q.in_ + (q.mixEnqueue src len).2 := rfl
        rw [step, UInt32.toNat_add, number, stores.in_, Nat.mod_add_mod]
        simp [Nat.add_assoc]
      room := by simpa using fits
      whole := by
        intro x member
        rcases List.mem_append.1 member with before | added
        · exact stores.whole x before
        · exact length_of_mem_elements added
      held := by
        rw [List.flatten_append]
        exact old.append new }

/-- `__mix_dequeue` delivers the oldest elements. -/
theorem dequeueAt_eq (stores : Stores k esize q gone xs) (dst : Bytes) {n : UInt32}
    (stored : n.toNat ≤ xs.length) :
    q.dequeueAt dst n q.out = overlay dst (xs.take n.toNat).flatten := by
  have length := Ring.length_flatten stores.whole
  have bytes := Nat.mul_le_mul_right esize stored
  funext p
  rw [stores.shape.dequeueAt_spec dst q.out (Nat.le_trans stored stores.room) p, stores.bytes,
    stores.out, cell_of_wrap stores.shape, overlay, Ring.take_flatten stores.whole,
    List.getElem?_take]
  split
  next inside =>
    have at_ := List.getElem?_eq_getElem (show p < xs.flatten.length by omega)
    rw [at_, stores.held _ _ at_]
    rfl
  next => rfl

theorem advance (stores : Stores k esize q gone xs) {n : UInt32} (stored : n.toNat ≤ xs.length) :
    Stores k esize { q with out := q.out + n } (gone + n.toNat) (xs.drop n.toNat) where
  shape := ⟨stores.shape.mask, stores.shape.esize, stores.shape.fits⟩
  bytes := stores.bytes
  out := by rw [UInt32.toNat_add, stores.out, Nat.mod_add_mod]
  in_ := by
    rw [stores.in_, List.length_drop]
    congr 1
    omega
  room := by
    have := stores.room
    rw [List.length_drop]
    omega
  whole := fun x member => stores.whole x (List.mem_of_mem_drop member)
  held := by
    rw [Ring.drop_flatten stores.whole, Nat.add_mul]
    exact stores.held.drop _

/-- `mix_dequeue` removes the oldest, and delivers them. -/
theorem mixDequeue (stores : Stores k esize q gone xs) (dst : Bytes) (len : UInt32) :
    Stores k esize (q.mixDequeue dst len).1 (gone + min len.toNat xs.length)
        (xs.drop (min len.toNat xs.length)) ∧
      (q.mixDequeue dst len).2.1 = overlay dst (xs.take (min len.toNat xs.length)).flatten ∧
      (q.mixDequeue dst len).2.2.toNat = min len.toNat xs.length := by
  by_cases empty : q.in_ - q.out = 0
  · have none : xs = [] := List.length_eq_zero_iff.1 (by simpa [empty] using stores.sub_eq.symm)
    subst none
    have same : q.mixDequeue dst len = (q, dst, q.in_ - q.out) := if_pos empty
    rw [same]
    exact ⟨by simpa using stores, by simp, by simp [empty]⟩
  have step : q.mixDequeue dst len =
      ({ q with out := q.out + uintMin len (q.in_ - q.out) },
        q.dequeueAt dst (uintMin len (q.in_ - q.out)) q.out, uintMin len (q.in_ - q.out)) :=
    if_neg empty
  have number : (uintMin len (q.in_ - q.out)).toNat = min len.toNat xs.length := by
    rw [toNat_uintMin, stores.sub_eq]
  have stored : (uintMin len (q.in_ - q.out)).toNat ≤ xs.length :=
    number ▸ Nat.min_le_right _ _
  rw [step, ← number]
  exact ⟨stores.advance stored, stores.dequeueAt_eq dst stored, rfl⟩

end Stores

/-- Every call answers what the FIFO answers. -/
theorem Stores.call_refines {k esize gone : Nat} {q : MixQueue} {xs : List Element}
    (stores : Stores k esize q gone xs) (c : Call) :
    (∃ gone, Stores k esize (q.call c).1 gone (Fifo.call (2 ^ k) esize xs c).1) ∧
      (q.call c).2 = (Fifo.call (2 ^ k) esize xs c).2 := by
  cases c with
  | enqueue src len =>
      obtain ⟨stores', number⟩ := stores.mixEnqueue src len
      exact ⟨⟨gone, stores'⟩, congrArg Outcome.enqueued number⟩
  | dequeue dst len =>
      obtain ⟨stores', delivered, number⟩ := stores.mixDequeue dst len
      exact ⟨⟨_, stores'⟩, congrArg₂ Outcome.dequeued number delivered⟩

/-- A new queue of `2^k` elements is empty. -/
theorem mixQueueInit_stores {size esize : UInt32} {k : Nat} (large : 1 ≤ k)
    (capacity : size.toNat / esize.toNat = 2 ^ k) (buffer : Bytes) :
    ∃ q, mixQueueInit size esize buffer = some q ∧ Stores k esize.toNat q 0 [] := by
  have elements := Nat.two_pow_pos k
  have valid : ¬ (size = 0 ∨ esize = 0) := by
    rintro (rfl | rfl) <;> simp at capacity <;> omega
  have positive : 0 < esize.toNat := by
    refine Nat.pos_of_ne_zero fun zero => valid (Or.inr (UInt32.toNat_inj.1 ?_))
    simpa using zero
  have fits : 2 ^ k * esize.toNat < 2 ^ 32 := by
    rw [← capacity]
    exact Nat.lt_of_le_of_lt (Nat.div_mul_le_self _ _) size.toNat_lt
  have le := Nat.le_mul_of_pos_right (2 ^ k) positive
  have small : k < 32 := (Nat.pow_lt_pow_iff_right (by omega)).1 (Nat.lt_of_le_of_lt le fits)
  have number : size / esize = UInt32.ofNat (2 ^ k) := by
    apply UInt32.toNat_inj.1
    rw [UInt32.toNat_div, capacity, toNat_two_pow small]
  have two : ¬ UInt32.ofNat (2 ^ k) < 2 := by
    have least : 2 ^ 1 ≤ 2 ^ k := Nat.pow_le_pow_right (by omega) large
    rw [UInt32.lt_iff_toNat_lt, toNat_two_pow small]
    exact Nat.not_lt.2 least
  have init : mixQueueInit size esize buffer = some
      { in_ := 0
        out := 0
        mask := UInt32.ofNat (2 ^ k) - 1
        esize := esize
        data := buffer } := by
    rw [mixQueueInit, if_neg valid, number, roundupPowOfTwo_two_pow small, if_neg two]
  refine ⟨_, init, ?_⟩
  exact
    { shape := ⟨rfl, positive, fits⟩
      bytes := rfl
      out := rfl
      in_ := rfl
      room := Nat.zero_le _
      whole := by simp
      held := Ring.Holds.nil }

/-- **The queue refines the FIFO.** -/
theorem mixQueue_refines_fifo {size esize : UInt32} {k : Nat} (large : 1 ≤ k)
    (capacity : size.toNat / esize.toNat = 2 ^ k) (buffer : Bytes) (calls : List Call) :
    ∃ q, mixQueueInit size esize buffer = some q ∧
      let ran := answers MixQueue.call q calls
      let fifo := answers (Fifo.call (2 ^ k) esize.toNat) [] calls
      ran.2 = fifo.2 ∧ ran.1.contents = fifo.1 ∧
        (ran.1.in_ - ran.1.out).toNat = fifo.1.length ∧ fifo.1.length ≤ 2 ^ k := by
  obtain ⟨q, init, start⟩ := mixQueueInit_stores large capacity buffer
  obtain ⟨⟨gone, stores⟩, same⟩ := Transition.answers_refines
    (R := fun q xs => ∃ gone, Stores k esize.toNat q gone xs)
    (fun q xs c ⟨gone, stores⟩ => stores.call_refines c) ⟨0, start⟩ calls
  exact ⟨q, init, same, stores.contents_eq, stores.sub_eq, stores.room⟩

/-- Five elements offered to a ring of four: four go in, three come out, and the next two go
round the end of the array. -/
theorem mixQueue_refines_fifo_of_four :
    ∃ q, mixQueueInit 12 3 (fun _ => 0) = some q ∧
      let calls := [.enqueue (fun p => UInt8.ofNat p) 5, .dequeue (fun _ => 255) 3,
        .enqueue (fun p => UInt8.ofNat (100 + p)) 2]
      let ran := answers MixQueue.call q calls
      let fifo := answers (Fifo.call (2 ^ 2) 3) [] calls
      ran.2 = fifo.2 ∧ ran.1.contents = fifo.1 ∧
        (ran.1.in_ - ran.1.out).toNat = fifo.1.length ∧ fifo.1.length ≤ 2 ^ 2 :=
  mixQueue_refines_fifo (k := 2) (by decide) (by decide) _ _

end Mixdk
