/-
# Queue.LockFree -- many producers and one consumer

`mix_enqueue_lockfree` computes the free space, moves `in` by a compare-and-swap, and copies
its elements afterwards; `mix_dequeue_lockfree` does the same with `out`.  `LockFree` takes
these steps one by one, for any number of producers.

The free space can be gone by the time of the swap, a consumer can take elements that are not
written yet, and a producer can write where a consumer has not read yet.  Where none of this
happens (`Undisturbed`), each element is received once, after it was written
(`mixQueue_lockfree_safe`).

The elements accepted are numbered in the order of the swaps, and a producer's `ticket` is the
number of its first one.  The window from the elements received to those accepted is up to twice
as long as the ring; of two elements in it with one slot, the later one is still to be written
(`Inv.later`).
-/
import Mixdk.Queue.Fifo

namespace Mixdk

set_option autoImplicit false

open Transition

/-- Where a producer is in `mix_enqueue_lockfree`. -/
inductive Producer
  | idle
  | checked (src : Bytes) (len : UInt32)
  | loaded (src : Bytes) (len in_ : UInt32)
  /-- The swap succeeded; `ticket` is not part of the program. -/
  | reserved (src : Bytes) (len in_ : UInt32) (ticket : Nat)

/-- Where the consumer is in `mix_dequeue_lockfree`. -/
inductive Consumer
  | idle
  | checked (dst : Bytes) (len : UInt32)
  | loaded (dst : Bytes) (len out : UInt32)
  | reserved (dst : Bytes) (len out : UInt32)

/-- The queue, the threads, and what has gone in and out. -/
structure LockFree where
  queue : MixQueue
  producers : Nat → Producer
  consumer : Consumer
  accepted : List Element
  received : List Element

inductive LockFree.Turn
  /-- compute the free space, and fix the number of elements -/
  | enqueue (i : Nat) (src : Bytes) (len : UInt32)
  | load (i : Nat)
  /-- `atomic_compare_exchange_weak`, which may fail for no reason -/
  | swap (i : Nat) (spurious : Bool)
  | copyIn (i : Nat)
  /-- compute the number of elements to take -/
  | dequeue (dst : Bytes) (len : UInt32)
  | loadOut
  | swapOut (spurious : Bool)
  | copyOut

namespace LockFree

def start (q : MixQueue) : LockFree :=
  { queue := q
    producers := fun _ => .idle
    consumer := .idle
    accepted := []
    received := [] }

def setProducer (s : LockFree) (i : Nat) (p : Producer) : LockFree :=
  { s with producers := Function.update s.producers i p }

/-- The swap of a producer; when it fails, `in` is loaded again. -/
def swapIn (s : LockFree) (i : Nat) (src : Bytes) (len in_ : UInt32) (spurious : Bool) : LockFree :=
  if s.queue.in_ = in_ ∧ spurious = false then
    { s with
      queue := { s.queue with in_ := in_ + len }
      producers := Function.update s.producers i (.reserved src len in_ s.accepted.length)
      accepted := s.accepted ++ elements s.queue.esize.toNat src len.toNat }
  else s.setProducer i (.checked src len)

/-- The swap of the consumer. -/
def swapOut (s : LockFree) (dst : Bytes) (len out : UInt32) (spurious : Bool) : LockFree :=
  if s.queue.out = out ∧ spurious = false then
    { s with
      queue := { s.queue with out := out + len }
      consumer := .reserved dst len out }
  else { s with consumer := .checked dst len }

def step (s : LockFree) : Turn → Option LockFree
  | .enqueue i src len =>
      match s.producers i with
      | .idle =>
          let l := s.queue.unused
          let len := if len > l then l else len
          some (s.setProducer i (.checked src len))
      | _ => none
  | .load i =>
      match s.producers i with
      | .checked src len => some (s.setProducer i (.loaded src len s.queue.in_))
      | _ => none
  | .swap i spurious =>
      match s.producers i with
      | .loaded src len in_ => some (s.swapIn i src len in_ spurious)
      | _ => none
  | .copyIn i =>
      match s.producers i with
      | .reserved src len in_ _ =>
          some { s.setProducer i .idle with queue := s.queue.enqueueAt src len in_ }
      | _ => none
  | .dequeue dst len =>
      match s.consumer with
      | .idle =>
          let l := s.queue.in_ - s.queue.out
          if l = 0 then some s
          else
            let len := if len > l then l else len
            some { s with consumer := .checked dst len }
      | _ => none
  | .loadOut =>
      match s.consumer with
      | .checked dst len => some { s with consumer := .loaded dst len s.queue.out }
      | _ => none
  | .swapOut spurious =>
      match s.consumer with
      | .loaded dst len out => some (s.swapOut dst len out spurious)
      | _ => none
  | .copyOut =>
      match s.consumer with
      | .reserved dst len out =>
          let dst := s.queue.dequeueAt dst len out
          some { s with
            consumer := .idle
            received := s.received ++ elements s.queue.esize.toNat dst len.toNat }
      | _ => none

/-- Element number `p` is accepted, and its producer has not copied it yet. -/
def Pending (s : LockFree) (p : Nat) : Prop :=
  ∃ i src len in_ ticket, s.producers i = .reserved src len in_ ticket ∧
    ticket ≤ p ∧ p < ticket + len.toNat

/-- The steps that do not disturb each other: a swap of `in` for which there still is room, a
copy to slots the consumer is not about to read something else from, and a copy from slots that
no producer is about to write. -/
def Undisturbed (s : LockFree) : Turn → Prop
  | .swap i spurious => ∀ src len in_, s.producers i = .loaded src len in_ →
      s.queue.in_ = in_ → spurious = false → len ≤ s.queue.unused
  | .copyIn i => ∀ src len in_ ticket dst n out, s.producers i = .reserved src len in_ ticket →
      s.consumer = .reserved dst n out → ∀ a < len.toNat, ∀ b < n.toNat,
        in_ + UInt32.ofNat a ≠ out + UInt32.ofNat b →
          (in_ + UInt32.ofNat a) &&& s.queue.mask ≠ (out + UInt32.ofNat b) &&& s.queue.mask
  | .copyOut => ∀ i src len in_ ticket dst n out, s.producers i = .reserved src len in_ ticket →
      s.consumer = .reserved dst n out → ∀ a < len.toNat, ∀ b < n.toNat,
        in_ + UInt32.ofNat a ≠ out + UInt32.ofNat b
  | _ => True

/-- The counters are at most the capacity apart, and what the consumer has is what was accepted,
in order and completely written. -/
structure Safe (k : Nat) (s : LockFree) : Prop where
  room : (s.queue.in_ - s.queue.out).toNat ≤ 2 ^ k
  received : s.received <+: s.accepted
  written : ∀ p < s.received.length, ¬ s.Pending p

end LockFree

/-! ## The elements of a copy -/

namespace MixQueue.Shape

variable {q : MixQueue} {k : Nat} {len : UInt32} {a slot : Nat}

/-- Element `a` of a batch goes to slot `off + a`. -/
theorem enqueueAt_element (shape : q.Shape k) (src : Bytes) (off : UInt32)
    (room : len.toNat ≤ 2 ^ k) (inside : a < len.toNat) :
    elementAt q.esize.toNat (q.enqueueAt src len off).data
        ((off.toNat + a) % 2 ^ k * q.esize.toNat) =
      elementAt q.esize.toNat src (a * q.esize.toNat) := by
  obtain ⟨copied, -⟩ := shape.enqueueAt_spec src off room
  refine List.map_congr_left fun b member => ?_
  have byte := List.mem_range.1 member
  have last := Nat.mul_le_mul_right q.esize.toNat (Nat.succ_le_of_lt inside)
  rw [Nat.succ_mul] at last
  rw [← copied (a * q.esize.toNat + b) (by omega), ← Ring.slot_cell byte (Nat.two_pow_pos k)]
  congr 2
  ring

/-- The other slots keep their elements. -/
theorem enqueueAt_element_of_ne (shape : q.Shape k) (src : Bytes) (off : UInt32)
    (room : len.toNat ≤ 2 ^ k) (below : slot < 2 ^ k)
    (other : ∀ a < len.toNat, (off.toNat + a) % 2 ^ k ≠ slot) :
    elementAt q.esize.toNat (q.enqueueAt src len off).data (slot * q.esize.toNat) =
      elementAt q.esize.toNat q.data (slot * q.esize.toNat) := by
  obtain ⟨-, kept⟩ := shape.enqueueAt_spec src off room
  refine List.map_congr_left fun b member => ?_
  have byte := List.mem_range.1 member
  have last := Nat.mul_le_mul_right q.esize.toNat (Nat.succ_le_of_lt below)
  rw [Nat.succ_mul] at last
  refine kept _ (by omega) fun t inside same => ?_
  have rest : t % q.esize.toNat < q.esize.toNat := Nat.mod_lt t shape.esize
  have index : off.toNat * q.esize.toNat + t =
      (off.toNat + t / q.esize.toNat) * q.esize.toNat + t % q.esize.toNat := by
    conv_lhs => rw [← Nat.div_add_mod t q.esize.toNat]
    ring
  rw [index, Ring.slot_cell rest (Nat.two_pow_pos k)] at same
  have quotient := congrArg (· / q.esize.toNat) same
  simp only [Nat.mul_comm _ q.esize.toNat, Nat.mul_add_div shape.esize, Nat.div_eq_of_lt byte,
    Nat.div_eq_of_lt rest, Nat.add_zero] at quotient
  exact other _ (Nat.div_lt_of_lt_mul (Nat.mul_comm _ _ ▸ inside)) quotient.symm

/-- Element `a` delivered is the one in slot `off + a`. -/
theorem dequeueAt_element (shape : q.Shape k) (dst : Bytes) (off : UInt32)
    (room : len.toNat ≤ 2 ^ k) (inside : a < len.toNat) :
    elementAt q.esize.toNat (q.dequeueAt dst len off) (a * q.esize.toNat) =
      elementAt q.esize.toNat q.data ((off.toNat + a) % 2 ^ k * q.esize.toNat) := by
  refine List.map_congr_left fun b member => ?_
  have byte := List.mem_range.1 member
  have last := Nat.mul_le_mul_right q.esize.toNat (Nat.succ_le_of_lt inside)
  rw [Nat.succ_mul] at last
  rw [shape.dequeueAt_spec dst off room, if_pos (by omega), ← Ring.slot_cell byte (Nat.two_pow_pos k)]
  congr 2
  ring

end MixQueue.Shape

namespace LockFree

/-! ## The invariant -/

/-- The consumer's batch is the next one, of elements that are accepted. -/
def Taking (s : LockFree) (O : Nat) : Consumer → Prop
  | .idle => s.received.length = O
  | .checked _ len => s.received.length = O ∧ O + len.toNat ≤ s.accepted.length
  | .loaded _ len out =>
      s.received.length = O ∧ O + len.toNat ≤ s.accepted.length ∧ out = s.queue.out
  | .reserved _ len out =>
      s.received.length + len.toNat = O ∧ out.toNat = s.received.length % 2 ^ 32

/-- A producer that has reserved its elements has them in the list of those accepted. -/
structure Offer (k esize : Nat) (accepted : List Element) (src : Bytes) (len in_ : UInt32)
    (ticket : Nat) : Prop where
  counter : in_.toNat = ticket % 2 ^ 32
  room : len.toNat ≤ 2 ^ k
  accepted : ∀ a < len.toNat, accepted[ticket + a]? = some (elementAt esize src (a * esize))

/-- `O` elements have left the queue. -/
structure Inv (k esize : Nat) (s : LockFree) (O : Nat) : Prop where
  shape : s.queue.Shape k
  bytes : s.queue.esize.toNat = esize
  in_ : s.queue.in_.toNat = s.accepted.length % 2 ^ 32
  out : s.queue.out.toNat = O % 2 ^ 32
  window : O ≤ s.accepted.length ∧ s.accepted.length ≤ O + 2 ^ k
  batch : O ≤ s.received.length + 2 ^ k
  taking : s.Taking O s.consumer
  offers : ∀ i src len in_ ticket, s.producers i = .reserved src len in_ ticket →
    Offer k esize s.accepted src len in_ ticket
  written : ∀ p < s.received.length, ¬ s.Pending p
  received : s.received <+: s.accepted
  /-- Of two elements with one slot, the later one is still to be written. -/
  later : ∀ p p', s.received.length ≤ p → p < p' → p' < s.accepted.length →
    p % 2 ^ k = p' % 2 ^ k → s.Pending p'
  held : ∀ p, s.received.length ≤ p → p < s.accepted.length → ¬ s.Pending p →
    s.accepted[p]? = some (elementAt esize s.queue.data (p % 2 ^ k * esize))

/-- A slot counted from a wrapped counter. -/
theorem slot_of_counter {q : MixQueue} {k : Nat} (shape : q.Shape k) {counter : Nat} {off : UInt32}
    (at_ : off.toNat = counter % 2 ^ 32) (a : Nat) :
    (off.toNat + a) % 2 ^ k = (counter + a) % 2 ^ k := by
  rw [at_, Nat.add_mod, Ring.mod_of_wrap shape.divides, ← Nat.add_mod]

/-- Wrapped counters less than 2^32 apart are equal when the counters are. -/
theorem counter_eq_iff {pos pos' : UInt32} {counter counter' a b : Nat}
    (at_ : pos.toNat = counter % 2 ^ 32) (at' : pos'.toNat = counter' % 2 ^ 32)
    (near : counter + a < counter' + b + 2 ^ 32) (near' : counter' + b < counter + a + 2 ^ 32) :
    pos + UInt32.ofNat a = pos' + UInt32.ofNat b ↔ counter + a = counter' + b := by
  rw [← UInt32.toNat_inj, UInt32.toNat_add, UInt32.toNat_add, UInt32.toNat_ofNat',
    UInt32.toNat_ofNat', at_, at', ← Nat.add_mod, ← Nat.add_mod]
  constructor
  · intro same
    omega
  · intro same
    rw [same]

section

variable {k esize O : Nat} {s t : LockFree}

theorem Pending.lt (inv : Inv k esize s O) {p : Nat} (pending : s.Pending p) :
    p < s.accepted.length := by
  obtain ⟨i, src, len, in_, ticket, reserved, low, high⟩ := pending
  have there := (inv.offers i src len in_ ticket reserved).accepted (p - ticket) (by omega)
  rw [Nat.add_sub_cancel' low] at there
  exact (List.getElem?_eq_some_iff.1 there).1

/-- While no producer enters or leaves `reserved`, the same elements are pending. -/
theorem pending_congr {producers : Nat → Producer}
    (same : ∀ i src len in_ ticket, producers i = .reserved src len in_ ticket ↔
      s.producers i = .reserved src len in_ ticket) (p : Nat) :
    ({ s with producers := producers } : LockFree).Pending p ↔ s.Pending p := by
  unfold Pending
  simp only [same]

/-- After a swap the producer has its elements, from the number accepted so far on. -/
theorem producers_swapIn {i : Nat} {src : Bytes} {len in_ : UInt32}
    (loaded : s.producers i = .loaded src len in_) (same : s.queue.in_ = in_) (j : Nat) (src' : Bytes)
    (len' in' : UInt32) (ticket : Nat) :
    (s.swapIn i src len in_ false).producers j = .reserved src' len' in' ticket ↔
      (j = i ∧ src' = src ∧ len' = len ∧ in' = in_ ∧ ticket = s.accepted.length) ∨
        s.producers j = .reserved src' len' in' ticket := by
  rw [swapIn, if_pos ⟨same, rfl⟩]
  show Function.update s.producers i _ j = _ ↔ _
  by_cases here : j = i
  · rw [here, Function.update_self, loaded]
    simp only [Producer.reserved.injEq, true_and, reduceCtorEq, or_false]
    constructor
    · rintro ⟨rfl, rfl, rfl, rfl⟩
      exact ⟨rfl, rfl, rfl, rfl⟩
    · rintro ⟨rfl, rfl, rfl, rfl⟩
      exact ⟨rfl, rfl, rfl, rfl⟩
  · rw [Function.update_of_ne here]
    simp only [here, false_and, false_or]

/-- The new elements are pending, and those that were. -/
theorem pending_swapIn {i : Nat} {src : Bytes} {len in_ : UInt32}
    (loaded : s.producers i = .loaded src len in_) (same : s.queue.in_ = in_) (p : Nat) :
    (s.swapIn i src len in_ false).Pending p ↔
      s.Pending p ∨ (s.accepted.length ≤ p ∧ p < s.accepted.length + len.toNat) := by
  have producers := producers_swapIn loaded same
  constructor
  · rintro ⟨j, src', len', in', ticket, reserved, low, high⟩
    rcases (producers ..).1 reserved with ⟨-, -, rfl, -, rfl⟩ | old
    · exact .inr ⟨low, high⟩
    · exact .inl ⟨j, src', len', in', ticket, old, low, high⟩
  · rintro (⟨j, src', len', in', ticket, reserved, low, high⟩ | ⟨low, high⟩)
    · exact ⟨j, src', len', in', ticket, (producers ..).2 (.inr reserved), low, high⟩
    · exact ⟨i, src, len, in_, _, (producers ..).2 (.inl ⟨rfl, rfl, rfl, rfl, rfl⟩), low, high⟩

theorem producers_idle (i j : Nat) (src' : Bytes) (len' in' : UInt32) (ticket' : Nat) :
    (s.setProducer i .idle).producers j = .reserved src' len' in' ticket' ↔
      j ≠ i ∧ s.producers j = .reserved src' len' in' ticket' := by
  show Function.update s.producers i _ j = _ ↔ _
  by_cases here : j = i
  · rw [here, Function.update_self]
    exact iff_of_false nofun fun there => there.1 rfl
  · rw [Function.update_of_ne here]
    simp only [here, ne_eq, not_false_eq_true, true_and]

theorem Pending.of_idle {i p : Nat} (pending : (s.setProducer i .idle).Pending p) : s.Pending p := by
  obtain ⟨j, src', len', in', ticket', there, first, last⟩ := pending
  exact ⟨j, src', len', in', ticket', ((producers_idle ..).1 there).2, first, last⟩

/-- When a producer is done its own elements are pending no more. -/
theorem Pending.idle {i p : Nat} {src : Bytes} {len in_ : UInt32} {ticket : Nat}
    (pending : s.Pending p) (reserved : s.producers i = .reserved src len in_ ticket) :
    (s.setProducer i .idle).Pending p ∨ (ticket ≤ p ∧ p < ticket + len.toNat) := by
  obtain ⟨j, src', len', in', ticket', there, first, last⟩ := pending
  by_cases here : j = i
  · rw [here, reserved, Producer.reserved.injEq] at there
    obtain ⟨-, rfl, -, rfl⟩ := there
    exact .inr ⟨first, last⟩
  · exact .inl ⟨j, src', len', in', ticket', (producers_idle ..).2 ⟨here, there⟩, first, last⟩

namespace Inv

theorem sub_eq (inv : Inv k esize s O) :
    (s.queue.in_ - s.queue.out).toNat = s.accepted.length - O := by
  have window := inv.window
  have in_ : s.queue.in_.toNat = (O + (s.accepted.length - O)) % 2 ^ 32 := by
    rw [Nat.add_sub_cancel' window.1]
    exact inv.in_
  exact inv.shape.sub_eq inv.out in_ (by omega)

theorem unused_eq (inv : Inv k esize s O) :
    s.queue.unused.toNat = 2 ^ k - (s.accepted.length - O) := by
  have window := inv.window
  have in_ : s.queue.in_.toNat = (O + (s.accepted.length - O)) % 2 ^ 32 := by
    rw [Nat.add_sub_cancel' window.1]
    exact inv.in_
  exact inv.shape.unused_eq inv.out in_ (by omega)

theorem safe (inv : Inv k esize s O) : s.Safe k where
  room := by
    have window := inv.window
    rw [inv.sub_eq]
    omega
  received := inv.received
  written := inv.written

/-- A step of a producer that is not the swap or the copy. -/
theorem setProducer (inv : Inv k esize s O) {i : Nat} {p : Producer}
    (before : ∀ src len in_ ticket, s.producers i ≠ .reserved src len in_ ticket)
    (after : ∀ src len in_ ticket, p ≠ .reserved src len in_ ticket) :
    Inv k esize (s.setProducer i p) O := by
  have same : ∀ j src len in_ ticket,
      (s.setProducer i p).producers j = .reserved src len in_ ticket ↔
        s.producers j = .reserved src len in_ ticket := by
    intro j src len in_ ticket
    show Function.update s.producers i p j = _ ↔ _
    by_cases here : j = i
    · rw [here, Function.update_self]
      exact iff_of_false (after _ _ _ _) (before _ _ _ _)
    · rw [Function.update_of_ne here]
  have pending := pending_congr same
  exact
    { inv with
      offers := fun j src len in_ ticket reserved =>
        inv.offers j src len in_ ticket ((same ..).1 reserved)
      written := fun p below there => inv.written p below ((pending p).1 there)
      later := fun p p' low less high slot => (pending p').2 (inv.later p p' low less high slot)
      held := fun p low high done => inv.held p low high fun there => done ((pending p).2 there) }

/-- A swap of `in` for which there is room. -/
theorem reserve (inv : Inv k esize s O) {i : Nat} {src : Bytes} {len in_ : UInt32}
    (loaded : s.producers i = .loaded src len in_) (same : s.queue.in_ = in_)
    (room : len ≤ s.queue.unused) : Inv k esize (s.swapIn i src len in_ false) O := by
  have window := inv.window
  have fits : len.toNat ≤ 2 ^ k - (s.accepted.length - O) := by
    rw [UInt32.le_iff_toNat_le, inv.unused_eq] at room
    exact room
  let t : LockFree :=
    { s with
      queue := { s.queue with in_ := in_ + len }
      producers := Function.update s.producers i (.reserved src len in_ s.accepted.length)
      accepted := s.accepted ++ elements s.queue.esize.toNat src len.toNat }
  have step : s.swapIn i src len in_ false = t := if_pos ⟨same, rfl⟩
  have length : t.accepted.length = s.accepted.length + len.toNat := by simp [t]
  have producers := producers_swapIn loaded same
  have pending := pending_swapIn loaded same
  rw [step] at producers pending
  have early := inv.received.length_le
  rw [step]
  exact
    { shape := ⟨inv.shape.mask, inv.shape.esize, inv.shape.fits⟩
      bytes := inv.bytes
      in_ := by
        show (in_ + len).toNat = _
        rw [length, UInt32.toNat_add, ← same, inv.in_, Nat.mod_add_mod]
      out := inv.out
      window := by
        rw [length]
        omega
      batch := inv.batch
      taking := by
        have taking := inv.taking
        show t.Taking O s.consumer
        unfold Taking at taking ⊢
        rw [length]
        split at taking
        · exact taking
        · exact ⟨taking.1, by omega⟩
        · exact ⟨taking.1, by omega, taking.2.2⟩
        · exact taking
      offers := by
        intro j src' len' in' ticket reserved
        rcases (producers ..).1 reserved with ⟨-, rfl, rfl, rfl, rfl⟩ | old
        · refine ⟨same ▸ inv.in_, by omega, fun a inside => ?_⟩
          show (s.accepted ++ _)[_]? = _
          rw [List.getElem?_append_right (Nat.le_add_right _ a), Nat.add_sub_cancel_left, elements,
            List.getElem?_map, List.getElem?_range inside, inv.bytes]
          rfl
        · have offer := inv.offers j src' len' in' ticket old
          refine ⟨offer.counter, offer.room, fun a inside => ?_⟩
          have there := offer.accepted a inside
          show (s.accepted ++ _)[_]? = _
          rw [List.getElem?_append_left (List.getElem?_eq_some_iff.1 there).1, there]
      written := by
        intro p below there
        rcases (pending p).1 there with old | new
        · exact inv.written p below old
        · have := new.1
          exact absurd (Nat.lt_of_lt_of_le below early) (by omega)
      received := inv.received.trans (List.prefix_append _ _)
      later := by
        intro p p' low less high slot
        rw [length] at high
        refine (pending p').2 ?_
        by_cases new : s.accepted.length ≤ p'
        · exact .inr ⟨new, high⟩
        · exact .inl (inv.later p p' low less (by omega) slot)
      held := by
        intro p low high done
        rw [length] at high
        have old : p < s.accepted.length := by
          by_contra new
          exact done ((pending p).2 (.inr ⟨by omega, high⟩))
        show (s.accepted ++ _)[p]? = _
        rw [List.getElem?_append_left old]
        exact inv.held p low old fun there => done ((pending p).2 (.inl there)) }

/-- What a producer has reserved is not received yet. -/
theorem unread (inv : Inv k esize s O) {i : Nat} {src : Bytes} {len in_ : UInt32} {ticket : Nat}
    (reserved : s.producers i = .reserved src len in_ ticket) {a : Nat} (below : a < len.toNat) :
    s.received.length ≤ ticket + a := by
  by_contra early
  exact inv.written (ticket + a) (by omega)
    ⟨i, src, len, in_, ticket, reserved, Nat.le_add_right _ a, by omega⟩

/-- No element before one that a producer copies, and not received yet, has its slot: such an
element has left the queue but was not read yet. -/
theorem slot_free (inv : Inv k esize s O) {i : Nat} {src : Bytes} {len in_ : UInt32} {ticket : Nat}
    (reserved : s.producers i = .reserved src len in_ ticket) (bits : k < 32)
    (apart : s.Undisturbed (.copyIn i)) {a p : Nat} (below : a < len.toNat)
    (unread : s.received.length ≤ p) (less : p < ticket + a) :
    p % 2 ^ k ≠ (ticket + a) % 2 ^ k := by
  intro slot
  have window := inv.window
  have batch := inv.batch
  have offer := inv.offers i src len in_ ticket reserved
  have high : ticket + a < s.accepted.length :=
    (List.getElem?_eq_some_iff.1 (offer.accepted a below)).1
  have double : 2 ^ k + 2 ^ k ≤ 2 ^ 32 := by
    have := Nat.pow_le_pow_right (show 0 < 2 by omega) (show k + 1 ≤ 32 by omega)
    rw [Nat.pow_succ] at this
    omega
  have gone : p < O := by
    by_contra stays
    have := Ring.window_inj (show O ≤ p by omega) (show p < O + 2 ^ k by omega)
      (show O ≤ ticket + a by omega) (by omega) slot
    omega
  have taking := inv.taking
  cases consumer : s.consumer with
  | idle =>
      rw [consumer] at taking
      have : s.received.length = O := taking
      omega
  | checked dst n =>
      rw [consumer] at taking
      have := taking.1
      omega
  | loaded dst n out =>
      rw [consumer] at taking
      have := taking.1
      omega
  | reserved dst n out =>
      rw [consumer] at taking
      obtain ⟨length, counter⟩ := taking
      obtain ⟨b, rfl⟩ := Nat.exists_eq_add_of_le unread
      refine apart src len in_ ticket dst n out reserved consumer a below b (by omega) ?_ ?_
      · rw [Ne, counter_eq_iff offer.counter counter (by omega) (by omega)]
        omega
      · rw [← UInt32.toNat_inj, inv.shape.slot_eq offer.counter, inv.shape.slot_eq counter]
        exact slot.symm

/-- A copy to slots from which the consumer is not about to read something else. -/
theorem copyIn (inv : Inv k esize s O) {i : Nat} {src : Bytes} {len in_ : UInt32} {ticket : Nat}
    (reserved : s.producers i = .reserved src len in_ ticket) (bits : k < 32)
    (apart : s.Undisturbed (.copyIn i)) :
    Inv k esize { s.setProducer i .idle with queue := s.queue.enqueueAt src len in_ } O := by
  have offer := inv.offers i src len in_ ticket reserved
  have free := fun {a p : Nat} => inv.slot_free reserved bits apart (a := a) (p := p)
  exact
    { shape := ⟨inv.shape.mask, inv.shape.esize, inv.shape.fits⟩
      bytes := inv.bytes
      in_ := inv.in_
      out := inv.out
      window := inv.window
      batch := inv.batch
      taking := inv.taking
      offers := fun j src' len' in' ticket' there =>
        inv.offers j src' len' in' ticket' ((producers_idle ..).1 there).2
      written := fun p below there => inv.written p below (Pending.of_idle there)
      received := inv.received
      later := by
        intro p p' unread less high slot
        rcases (inv.later p p' unread less high slot).idle reserved with still | ⟨first, last⟩
        · exact still
        · obtain ⟨a, rfl⟩ := Nat.exists_eq_add_of_le first
          exact absurd slot (free (by omega) unread less)
      held := by
        intro p unread high done
        by_cases mine : ticket ≤ p ∧ p < ticket + len.toNat
        · obtain ⟨a, rfl⟩ := Nat.exists_eq_add_of_le mine.1
          have below : a < len.toNat := by omega
          have copied := inv.shape.enqueueAt_element src in_ offer.room below
          rw [slot_of_counter inv.shape offer.counter, inv.bytes] at copied
          show s.accepted[ticket + a]? = _
          rw [offer.accepted a below, ← copied]
        · have settled : ¬ s.Pending p := fun there => (there.idle reserved).elim done mine
          show s.accepted[p]? = _
          rw [inv.held p unread high settled]
          have kept := inv.shape.enqueueAt_element_of_ne src in_ offer.room
            (Nat.mod_lt p (Nat.two_pow_pos k)) fun a below same => ?_
          · rw [inv.bytes] at kept
            rw [← kept]
          · rw [slot_of_counter inv.shape offer.counter] at same
            rcases Nat.lt_trichotomy p (ticket + a) with less | equal | more
            · exact free below unread less same.symm
            · exact mine (by omega)
            · exact settled (inv.later (ticket + a) p (inv.unread reserved below) more high same) }

/-- The consumer fixes the number of elements to take. -/
theorem take (inv : Inv k esize s O) (idle : s.consumer = .idle) (dst : Bytes) (len : UInt32) :
    Inv k esize { s with consumer := .checked dst (uintMin len (s.queue.in_ - s.queue.out)) } O := by
  have taking := inv.taking
  have window := inv.window
  rw [idle] at taking
  have stored : (uintMin len (s.queue.in_ - s.queue.out)).toNat ≤ s.accepted.length - O := by
    rw [toNat_uintMin, inv.sub_eq]
    exact Nat.min_le_right _ _
  exact
    { inv with
      taking :=
        ⟨taking, show O + (uintMin len (s.queue.in_ - s.queue.out)).toNat ≤ s.accepted.length by
          omega⟩ }

theorem swapOut (inv : Inv k esize s O) {dst : Bytes} {len out : UInt32}
    (loaded : s.consumer = .loaded dst len out) (spurious : Bool) :
    ∃ O, Inv k esize (s.swapOut dst len out spurious) O := by
  have window := inv.window
  have taking := inv.taking
  rw [loaded] at taking
  obtain ⟨all, inside, same⟩ := taking
  unfold LockFree.swapOut
  split
  · refine ⟨O + len.toNat, ?_⟩
    exact
      { inv with
        shape := ⟨inv.shape.mask, inv.shape.esize, inv.shape.fits⟩
        out := by
          show (out + len).toNat = _
          rw [UInt32.toNat_add, same, inv.out, Nat.mod_add_mod]
        window := ⟨inside, show s.accepted.length ≤ _ by omega⟩
        batch := show O + len.toNat ≤ s.received.length + 2 ^ k by omega
        taking := ⟨congrArg (· + len.toNat) all, by rw [all, same]; exact inv.out⟩ }
  · exact ⟨O, { inv with taking := ⟨all, inside⟩ }⟩

/-- A copy from slots that no producer is about to write. -/
theorem copyOut (inv : Inv k esize s O) {dst : Bytes} {len out : UInt32}
    (reserved : s.consumer = .reserved dst len out) (apart : s.Undisturbed .copyOut) :
    Inv k esize { s with
      consumer := .idle
      received := s.received ++
        elements s.queue.esize.toNat (s.queue.dequeueAt dst len out) len.toNat } O := by
  have window := inv.window
  have batch := inv.batch
  have taking := inv.taking
  rw [reserved] at taking
  obtain ⟨length, counter⟩ := taking
  -- Nothing of the batch is still to be written.
  have settled : ∀ b < len.toNat, ¬ s.Pending (s.received.length + b) := by
    rintro b below ⟨i, src, n, in_, ticket, there, first, last⟩
    obtain ⟨a, index⟩ := Nat.exists_eq_add_of_le first
    have offer := inv.offers i src n in_ ticket there
    refine apart i src n in_ ticket dst len out there reserved a (by omega) b below ?_
    rw [counter_eq_iff offer.counter counter (by omega) (by omega)]
    exact index.symm
  have delivered : elements s.queue.esize.toNat (s.queue.dequeueAt dst len out) len.toNat =
      (s.accepted.drop s.received.length).take len.toNat := by
    apply List.ext_getElem?
    intro b
    by_cases below : b < len.toNat
    · have read := inv.shape.dequeueAt_element dst out (show len.toNat ≤ 2 ^ k by omega) below
      rw [slot_of_counter inv.shape counter] at read
      rw [elements, List.getElem?_map, List.getElem?_range below, List.getElem?_take_of_lt below,
        List.getElem?_drop, inv.held _ (Nat.le_add_right _ b) (by omega) (settled b below),
        Option.map_some, read, inv.bytes]
    · rw [List.getElem?_eq_none (by simp; omega), List.getElem?_eq_none (by simp; omega)]
  have received : s.received ++ (s.accepted.drop s.received.length).take len.toNat =
      s.accepted.take O := by
    conv_lhs => enter [1]; rw [List.prefix_iff_eq_take.1 inv.received]
    rw [← length, List.take_add]
  have grown : (s.accepted.take O).length = O := by
    rw [List.length_take, Nat.min_eq_left window.1]
  rw [delivered, received]
  exact
    { inv with
      batch := by
        show O ≤ (s.accepted.take O).length + 2 ^ k
        omega
      taking := grown
      written := by
        intro p below there
        have below : p < O := Nat.lt_of_lt_of_eq below grown
        by_cases early : p < s.received.length
        · exact inv.written p early there
        · obtain ⟨b, rfl⟩ := Nat.exists_eq_add_of_le (Nat.le_of_not_lt early)
          exact settled b (by omega) there
      received := List.take_prefix _ _
      later := by
        intro p p' low less high slot
        have low : O ≤ p := Nat.le_trans (Nat.le_of_eq grown.symm) low
        exact inv.later p p' (by omega) less high slot
      held := by
        intro p low high done
        have low : O ≤ p := Nat.le_trans (Nat.le_of_eq grown.symm) low
        exact inv.held p (by omega) high done }

/-- **Every undisturbed step keeps the invariant.** -/
theorem step (inv : Inv k esize s O) (bits : k < 32) {turn : Turn} (undisturbed : s.Undisturbed turn)
    (stepped : s.step turn = some t) : ∃ O, Inv k esize t O := by
  cases turn with
  | enqueue i src len =>
      rw [LockFree.step] at stepped
      split at stepped
      next idle =>
        cases stepped
        exact ⟨O, inv.setProducer (by simp [idle]) (by simp)⟩
      next => cases stepped
  | load i =>
      rw [LockFree.step] at stepped
      split at stepped
      next src len checked =>
        cases stepped
        exact ⟨O, inv.setProducer (by simp [checked]) (by simp)⟩
      next => cases stepped
  | swap i spurious =>
      rw [LockFree.step] at stepped
      split at stepped
      next src len in_ loaded =>
        cases stepped
        by_cases success : s.queue.in_ = in_ ∧ spurious = false
        · obtain ⟨same, rfl⟩ := success
          exact ⟨O, inv.reserve loaded same (undisturbed src len in_ loaded same rfl)⟩
        · rw [swapIn, if_neg success]
          exact ⟨O, inv.setProducer (by simp [loaded]) (by simp)⟩
      next => cases stepped
  | copyIn i =>
      rw [LockFree.step] at stepped
      split at stepped
      next src len in_ ticket reserved =>
        cases stepped
        exact ⟨O, inv.copyIn reserved bits undisturbed⟩
      next => cases stepped
  | dequeue dst len =>
      rw [LockFree.step] at stepped
      split at stepped
      next idle =>
        simp only at stepped
        split at stepped
        next => cases stepped; exact ⟨O, inv⟩
        next => cases stepped; exact ⟨O, inv.take idle dst len⟩
      next => cases stepped
  | loadOut =>
      rw [LockFree.step] at stepped
      split at stepped
      next dst len checked =>
        cases stepped
        have taking := inv.taking
        rw [checked] at taking
        exact ⟨O, { inv with taking := ⟨taking.1, taking.2, rfl⟩ }⟩
      next => cases stepped
  | swapOut spurious =>
      rw [LockFree.step] at stepped
      split at stepped
      next dst len out loaded =>
        cases stepped
        exact inv.swapOut loaded spurious
      next => cases stepped
  | copyOut =>
      rw [LockFree.step] at stepped
      split at stepped
      next dst len out reserved =>
        cases stepped
        exact ⟨O, inv.copyOut reserved undisturbed⟩
      next => cases stepped

end Inv

/-- A new queue, seen by threads that have not begun. -/
theorem start_inv {q : MixQueue} (stores : Stores k esize q 0 []) : Inv k esize (start q) 0 where
  shape := stores.shape
  bytes := stores.bytes
  in_ := stores.in_
  out := stores.out
  window := ⟨Nat.le_refl _, Nat.zero_le _⟩
  batch := Nat.zero_le _
  taking := rfl
  offers := fun _ _ _ _ _ => nofun
  written := fun _ below => nomatch below
  received := List.nil_prefix
  later := fun _ _ _ _ high => nomatch high
  held := fun _ _ high => nomatch high

end

end LockFree

/-- **As long as the steps do not disturb each other, any interleaving is safe.** -/
theorem mixQueue_lockfree_safe {size esize : UInt32} {k : Nat} (large : 1 ≤ k)
    (capacity : size.toNat / esize.toNat = 2 ^ k) {buffer : Bytes} {q : MixQueue}
    (init : mixQueueInit size esize buffer = some q) {turns : List LockFree.Turn} {s : LockFree}
    (run : Run LockFree.step LockFree.Undisturbed (LockFree.start q) turns s) : s.Safe k := by
  obtain ⟨q', init', stores⟩ := mixQueueInit_stores large capacity buffer
  obtain rfl := Option.some.inj (init'.symm.trans init)
  have invariant : ∃ O, LockFree.Inv k esize.toNat s O :=
    run.invariant (I := fun s => ∃ O, LockFree.Inv k esize.toNat s O)
      (fun _ _ _ ⟨_, inv⟩ met stepped => inv.step stores.shape.bits met stepped)
      ⟨0, LockFree.start_inv stores⟩
  obtain ⟨O, inv⟩ := invariant
  exact inv.safe

/-- Two producers, one of which finds `in` moved and has to load it again. -/
theorem mixQueue_lockfree_safe_of_two :
    ∃ q s, mixQueueInit 2 1 (fun _ => 0) = some q ∧
      Run LockFree.step LockFree.Undisturbed (LockFree.start q)
        [.enqueue 0 (fun _ => 7) 1, .enqueue 1 (fun _ => 8) 1, .load 0, .load 1, .swap 1 false,
          .swap 0 false, .copyIn 1, .dequeue (fun _ => 0) 2, .loadOut, .swapOut false, .copyOut] s ∧
      s.Safe 1 := by
  have init : mixQueueInit 2 1 (fun _ => 0) = some
      { in_ := 0
        out := 0
        mask := 1
        esize := 1
        data := fun _ => 0 } := rfl
  have run : ∃ s, Run LockFree.step LockFree.Undisturbed
      (LockFree.start { in_ := 0, out := 0, mask := 1, esize := 1, data := fun _ => 0 })
      [.enqueue 0 (fun _ => 7) 1, .enqueue 1 (fun _ => 8) 1, .load 0, .load 1, .swap 1 false,
        .swap 0 false, .copyIn 1, .dequeue (fun _ => 0) 2, .loadOut, .swapOut false, .copyOut] s := by
    refine ⟨_, .cons trivial rfl (.cons trivial rfl (.cons trivial rfl (.cons trivial rfl
      (.cons ?_ rfl (.cons ?_ rfl (.cons ?_ rfl (.cons trivial rfl (.cons trivial rfl
        (.cons trivial rfl (.cons ?_ rfl (.nil _)))))))))))⟩
    · rintro _ _ _ loaded - -
      cases loaded
      decide
    · rintro _ _ _ loaded same -
      cases loaded
      exact absurd same (by decide)
    · rintro _ _ _ _ _ _ _ - consumer
      cases consumer
    · rintro i _ _ _ _ _ _ _ reserved -
      match i with
      | 0 | 1 | i + 2 => cases reserved
  obtain ⟨s, run⟩ := run
  exact ⟨_, s, init, run, mixQueue_lockfree_safe (k := 1) (by decide) (by decide) init run⟩

/-- Two producers of two elements each, in a queue of two: both find it empty. -/
theorem mixQueue_lockfree_overfull :
    ∃ q s, mixQueueInit 2 1 (fun _ => 0) = some q ∧
      exec LockFree.step (LockFree.start q)
        [.enqueue 0 (fun _ => 7) 2, .enqueue 1 (fun _ => 8) 2, .load 0, .swap 0 false, .load 1,
          .swap 1 false] = some s ∧ (s.queue.in_ - s.queue.out).toNat = 4 :=
  ⟨_, _, rfl, rfl, rfl⟩

end Mixdk
