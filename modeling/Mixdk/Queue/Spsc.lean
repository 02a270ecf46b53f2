/-
# Queue.Spsc -- one producer and one consumer

`mix_enqueue` reads `out` once, copies the elements it accepts, and then moves `in`;
`mix_dequeue` reads `in` once, copies out, and then moves `out`.  `Spsc` takes these steps
one by one, element by element, and a list of turns is an interleaving of the two threads.

The counters are seen from outside as numbers that only grow: `I` and `O` are the elements
published and released.  The producer writes at `I + done`, the consumer reads at
`O + done`; what a snapshot allowed stays allowed, as the other side's counter only grows
(`Inv`).
-/
import Mixdk.Queue.Fifo

namespace Mixdk

set_option autoImplicit false

open Transition (exec)

/-- A `mix_enqueue` under way: `len` elements accepted, `done` of them copied. -/
structure Enqueue where
  src : Bytes
  len : UInt32
  done : Nat

/-- A `mix_dequeue` under way. -/
structure Dequeue where
  len : UInt32
  done : Nat

/-- The queue, the two threads, and what has gone in and out.  `filled` marks the slots that
were written and not yet copied out. -/
structure Spsc where
  queue : MixQueue
  producer : Option Enqueue
  consumer : Option Dequeue
  accepted : List Element
  received : List Element
  filled : Nat → Bool

inductive Spsc.Turn
  /-- read `out`, and fix the number of elements -/
  | enqueue (src : Bytes) (len : UInt32)
  | copyIn
  | publish
  /-- read `in`, and fix the number of elements -/
  | dequeue (len : UInt32)
  | copyOut
  | release

namespace Spsc

def start (q : MixQueue) : Spsc :=
  { queue := q
    producer := none
    consumer := none
    accepted := []
    received := []
    filled := fun _ => false }

/-- The slot of the next element to write. -/
def inSlot (s : Spsc) (p : Enqueue) : Nat :=
  ((s.queue.in_ + UInt32.ofNat p.done) &&& s.queue.mask).toNat

/-- The slot of the next element to read. -/
def outSlot (s : Spsc) (c : Dequeue) : Nat :=
  ((s.queue.out + UInt32.ofNat c.done) &&& s.queue.mask).toNat

/-- `mix_enqueue` has read `out`. -/
def accept (s : Spsc) (src : Bytes) (len : UInt32) : Spsc :=
  let l := s.queue.unused
  let len := if len > l then l else len
  { s with producer := some { src := src, len := len, done := 0 } }

/-- `__mix_enqueue` copies one element. -/
def copyIn (s : Spsc) (p : Enqueue) : Spsc :=
  let esize := s.queue.esize.toNat
  let data := memcpy s.queue.data (s.inSlot p * esize) p.src (p.done * esize) esize
  { s with
    queue := { s.queue with data := data }
    producer := some { p with done := p.done + 1 }
    filled := Function.update s.filled (s.inSlot p) true }

/-- `queue->in += len`, and return. -/
def publish (s : Spsc) (p : Enqueue) : Spsc :=
  { s with
    queue := { s.queue with in_ := s.queue.in_ + p.len }
    producer := none
    accepted := s.accepted ++ elements s.queue.esize.toNat p.src p.len.toNat }

/-- `mix_dequeue` has read `in`; it returns where the queue is empty. -/
def take (s : Spsc) (len : UInt32) : Spsc :=
  let l := s.queue.in_ - s.queue.out
  if l = 0 then s
  else
    let len := if len > l then l else len
    { s with consumer := some { len := len, done := 0 } }

/-- `__mix_dequeue` copies one element. -/
def copyOut (s : Spsc) (c : Dequeue) : Spsc :=
  { s with
    consumer := some { c with done := c.done + 1 }
    received := s.received ++ [s.queue.element (s.queue.out + UInt32.ofNat c.done)]
    filled := Function.update s.filled (s.outSlot c) false }

/-- `queue->out += len`, and return. -/
def release (s : Spsc) (c : Dequeue) : Spsc :=
  { s with
    queue := { s.queue with out := s.queue.out + c.len }
    consumer := none }

def step (s : Spsc) : Turn → Option Spsc
  | .enqueue src len => if s.producer.isNone then some (s.accept src len) else none
  | .copyIn => s.producer.bind fun p => if p.done < p.len.toNat then some (s.copyIn p) else none
  | .publish => s.producer.bind fun p => if p.done < p.len.toNat then none else some (s.publish p)
  | .dequeue len => if s.consumer.isNone then some (s.take len) else none
  | .copyOut => s.consumer.bind fun c => if c.done < c.len.toNat then some (s.copyOut c) else none
  | .release => s.consumer.bind fun c => if c.done < c.len.toNat then none else some (s.release c)

/-- The elements accepted, and those of a `mix_enqueue` under way that are copied. -/
def written (s : Spsc) : List Element :=
  s.accepted ++ s.producer.elim [] fun p => elements s.queue.esize.toNat p.src p.done

/-- What the consumer has is what the producer gave, in order; the next slot written holds
nothing that is still to be read, and the next slot read was written. -/
structure Safe (s : Spsc) : Prop where
  received : s.received <+: s.accepted
  writes : ∀ p, s.producer = some p → p.done < p.len.toNat → s.filled (s.inSlot p) = false
  reads : ∀ c, s.consumer = some c → c.done < c.len.toNat → s.filled (s.outSlot c) = true

/-- Copying an element to a slot writes that slot. -/
theorem elementAt_memcpy (data src : Bytes) (slot slot' from_ esize : Nat) :
    elementAt esize (memcpy data (slot * esize) src from_ esize) (slot' * esize) =
      if slot' = slot then elementAt esize src from_ else elementAt esize data (slot' * esize) := by
  split
  next same =>
    apply List.map_congr_left
    intro b inside
    have short := List.mem_range.1 inside
    rw [same, memcpy, if_pos ⟨Nat.le_add_right _ _, by omega⟩, Nat.add_sub_cancel_left]
  next other =>
    apply List.map_congr_left
    intro b inside
    have short := List.mem_range.1 inside
    rw [memcpy, if_neg]
    rintro ⟨low, high⟩
    apply other
    have quotient : (slot' * esize + b) / esize = slot := by
      rw [Nat.div_eq_iff (by omega)]
      omega
    rw [← quotient, Nat.add_comm, Nat.add_mul_div_right _ _ (by omega), Nat.div_eq_of_lt short,
      Nat.zero_add]

/-! ## The invariant -/

/-- `I` elements are published and `O` released. -/
structure Inv (k esize : Nat) (s : Spsc) (I O : Nat) : Prop where
  shape : s.queue.Shape k
  bytes : s.queue.esize.toNat = esize
  in_ : s.queue.in_.toNat = I % 2 ^ 32
  out : s.queue.out.toNat = O % 2 ^ 32
  published : s.accepted.length = I
  delivered : s.received.length = O + s.consumer.elim 0 Dequeue.done
  window : O ≤ I ∧ I ≤ O + 2 ^ k
  producing : ∀ p, s.producer = some p → p.done ≤ p.len.toNat ∧ I + p.len.toNat ≤ O + 2 ^ k
  consuming : ∀ c, s.consumer = some c → c.done ≤ c.len.toNat ∧ O + c.len.toNat ≤ I
  received : s.received <+: s.accepted
  whole : ∀ x ∈ s.accepted, x.length = esize
  held : Ring.Holds (2 ^ k) (fun slot => elementAt esize s.queue.data (slot * esize))
    s.received.length (s.written.drop s.received.length)
  filled : ∀ slot, s.filled slot = true ↔
    ∃ j, s.received.length ≤ j ∧ j < s.written.length ∧ j % 2 ^ k = slot

namespace Inv

variable {k esize I O : Nat} {s t : Spsc}

theorem inSlot_eq (inv : Inv k esize s I O) (p : Enqueue) : s.inSlot p = (I + p.done) % 2 ^ k :=
  inv.shape.slot_eq inv.in_ p.done

theorem outSlot_eq (inv : Inv k esize s I O) (c : Dequeue) : s.outSlot c = (O + c.done) % 2 ^ k :=
  inv.shape.slot_eq inv.out c.done

theorem sub_eq (inv : Inv k esize s I O) : (s.queue.in_ - s.queue.out).toNat = I - O := by
  have window := inv.window
  have in_ : s.queue.in_.toNat = (O + (I - O)) % 2 ^ 32 := by
    rw [Nat.add_sub_cancel' window.1]
    exact inv.in_
  exact inv.shape.sub_eq inv.out in_ (by omega)

theorem unused_eq (inv : Inv k esize s I O) : s.queue.unused.toNat = 2 ^ k - (I - O) := by
  have window := inv.window
  have in_ : s.queue.in_.toNat = (O + (I - O)) % 2 ^ 32 := by
    rw [Nat.add_sub_cancel' window.1]
    exact inv.in_
  exact inv.shape.unused_eq inv.out in_ (by omega)

theorem length_written (inv : Inv k esize s I O) :
    s.written.length = I + s.producer.elim 0 Enqueue.done := by
  cases producer : s.producer with
  | none => simp [written, producer, inv.published]
  | some p => simp [written, producer, inv.published]

/-- Copies in progress go to free slots and come from filled ones. -/
theorem safe (inv : Inv k esize s I O) : s.Safe := by
  have windows := inv.window
  have delivered := inv.delivered
  have length := inv.length_written
  refine ⟨inv.received, ?_, ?_⟩
  · intro p producer more
    have batch := inv.producing p producer
    simp only [producer, Option.elim_some] at length
    rw [Bool.eq_false_iff, Ne, inv.filled, inv.inSlot_eq]
    rintro ⟨j, low, high, same⟩
    have := Ring.window_inj low (by omega) (show s.received.length ≤ I + p.done by omega)
      (by omega) same
    omega
  · intro c consumer more
    have batch := inv.consuming c consumer
    simp only [consumer, Option.elim_some] at delivered
    rw [inv.filled, inv.outSlot_eq]
    exact ⟨O + c.done, by omega, by omega, rfl⟩

theorem received_le (inv : Inv k esize s I O) : s.received.length ≤ I :=
  inv.published ▸ inv.received.length_le

theorem written_le (inv : Inv k esize s I O) :
    s.written.length ≤ s.received.length + 2 ^ k := by
  have window := inv.window
  have delivered := inv.delivered
  have length := inv.length_written
  cases producer : s.producer with
  | none =>
      simp only [producer, Option.elim_none] at length
      omega
  | some p =>
      have batch := inv.producing p producer
      simp only [producer, Option.elim_some] at length
      omega

/-- A `mix_enqueue` may fill what its snapshot shows free. -/
theorem accept (inv : Inv k esize s I O) (idle : s.producer = none) (src : Bytes) (len : UInt32) :
    Inv k esize (s.accept src len) I O := by
  have window := inv.window
  have written : (s.accept src len).written = s.written := by
    simp [Spsc.written, Spsc.accept, idle, elements]
  have room : (uintMin len s.queue.unused).toNat ≤ 2 ^ k - (I - O) := by
    rw [toNat_uintMin, inv.unused_eq]
    exact Nat.min_le_right _ _
  exact
    { inv with
      producing := by
        rintro p ⟨⟩
        exact ⟨Nat.zero_le _, show I + (uintMin len s.queue.unused).toNat ≤ O + 2 ^ k by omega⟩
      held := written ▸ inv.held
      filled := written ▸ inv.filled }

theorem copyIn (inv : Inv k esize s I O) {p : Enqueue} (producer : s.producer = some p)
    (more : p.done < p.len.toNat) : Inv k esize (s.copyIn p) I O := by
  have batch := inv.producing p producer
  have early := inv.received_le
  have delivered := inv.delivered
  have length := inv.length_written
  simp only [producer, Option.elim_some] at length
  have written : (s.copyIn p).written = s.written ++ [elementAt esize p.src (p.done * esize)] := by
    simp [Spsc.written, Spsc.copyIn, producer, elements_succ, inv.bytes]
  have slot : s.inSlot p = s.written.length % 2 ^ k := by rw [inv.inSlot_eq, length]
  have cell (slot' : Nat) : elementAt esize (s.copyIn p).queue.data (slot' * esize) =
      if slot' = s.written.length % 2 ^ k then elementAt esize p.src (p.done * esize)
      else elementAt esize s.queue.data (slot' * esize) := by
    rw [← slot, ← elementAt_memcpy, ← inv.bytes]
    rfl
  have inside : s.written.length < s.received.length + 2 ^ k := by omega
  exact
    { inv with
      shape := ⟨inv.shape.mask, inv.shape.esize, inv.shape.fits⟩
      producing := by
        rintro p' ⟨⟩
        exact ⟨more, batch.2⟩
      held := by
        show Ring.Holds _ _ s.received.length ((s.copyIn p).written.drop s.received.length)
        rw [written, List.drop_append_of_le_length (by omega)]
        refine Ring.Holds.append (inv.held.congr ?_) (Ring.Holds.singleton ?_)
        · intro i old
          rw [List.length_drop] at old
          simp only [cell]
          apply if_neg
          intro same
          have := Ring.window_inj (Nat.le_add_right _ i) (by omega) (by omega) inside same
          omega
        · rw [List.length_drop, Nat.add_sub_cancel' (by omega), cell, if_pos rfl]
      filled := by
        intro slot'
        show Function.update s.filled (s.inSlot p) true slot' = true ↔ _
        rw [slot, written, List.length_append, List.length_singleton]
        by_cases same : slot' = s.written.length % 2 ^ k
        · rw [same, Function.update_self]
          exact ⟨fun _ => ⟨s.written.length, show s.received.length ≤ _ by omega, by omega, rfl⟩,
            fun _ => rfl⟩
        · rw [Function.update_of_ne same, inv.filled]
          constructor
          · rintro ⟨j, low, high, there⟩
            exact ⟨j, low, by omega, there⟩
          · rintro ⟨j, low, high, there⟩
            have other : j ≠ s.written.length := fun new => same (new ▸ there.symm)
            exact ⟨j, low, by omega, there⟩ }

theorem publish (inv : Inv k esize s I O) {p : Enqueue} (producer : s.producer = some p)
    (all : p.done = p.len.toNat) : Inv k esize (s.publish p) (I + p.len.toNat) O := by
  have batch := inv.producing p producer
  have window := inv.window
  have written : (s.publish p).written = s.written := by
    simp [Spsc.written, Spsc.publish, producer, all]
  exact
    { inv with
      shape := ⟨inv.shape.mask, inv.shape.esize, inv.shape.fits⟩
      in_ := by
        show (s.queue.in_ + p.len).toNat = _
        rw [UInt32.toNat_add, inv.in_, Nat.mod_add_mod]
      published := by simp [Spsc.publish, inv.published]
      window := ⟨by omega, by omega⟩
      producing := by rintro p' ⟨⟩
      consuming := by
        intro c consumer
        have := inv.consuming c consumer
        omega
      received := inv.received.trans (List.prefix_append _ _)
      whole := by
        intro x member
        rcases List.mem_append.1 member with before | added
        · exact inv.whole x before
        · exact (length_of_mem_elements added).trans inv.bytes
      held := written ▸ inv.held
      filled := written ▸ inv.filled }

/-- A `mix_dequeue` may take what its snapshot shows published. -/
theorem take (inv : Inv k esize s I O) (idle : s.consumer = none) (len : UInt32) :
    Inv k esize (s.take len) I O := by
  have window := inv.window
  have stored : (uintMin len (s.queue.in_ - s.queue.out)).toNat ≤ I - O := by
    rw [toNat_uintMin, inv.sub_eq]
    exact Nat.min_le_right _ _
  unfold Spsc.take
  simp only
  split
  · exact inv
  · exact
      { inv with
        delivered := by simpa [idle] using inv.delivered
        consuming := by
          rintro c ⟨⟩
          exact ⟨Nat.zero_le _,
            show O + (uintMin len (s.queue.in_ - s.queue.out)).toNat ≤ I by omega⟩ }

theorem copyOut (inv : Inv k esize s I O) {c : Dequeue} (consumer : s.consumer = some c)
    (more : c.done < c.len.toNat) : Inv k esize (s.copyOut c) I O := by
  have batch := inv.consuming c consumer
  have windows := inv.window
  have delivered := inv.delivered
  have length := inv.length_written
  simp only [consumer, Option.elim_some] at delivered
  have published : s.received.length < s.accepted.length := by
    rw [inv.published]
    omega
  have slot : s.outSlot c = s.received.length % 2 ^ k := by rw [inv.outSlot_eq, delivered]
  -- the element read is the next one that was accepted
  have next : (s.written.drop s.received.length)[0]? = some s.accepted[s.received.length] := by
    rw [List.getElem?_drop, Nat.add_zero, Spsc.written, List.getElem?_append_left published]
    exact List.getElem?_eq_getElem published
  have read : s.queue.element (s.queue.out + UInt32.ofNat c.done) =
      s.accepted[s.received.length] := by
    rw [← inv.held _ _ next, Nat.add_zero, ← slot, ← inv.bytes]
    rfl
  have received : (s.copyOut c).received = s.accepted.take (s.received.length + 1) := by
    rw [List.take_succ_eq_append_getElem published, ← List.prefix_iff_eq_take.1 inv.received,
      ← read]
    rfl
  have grown : (s.copyOut c).received.length = s.received.length + 1 := by
    simp [Spsc.copyOut]
  exact
    { inv with
      delivered := by
        rw [grown, delivered]
        rfl
      consuming := by
        rintro c' ⟨⟩
        exact ⟨more, batch.2⟩
      received := received ▸ List.take_prefix _ _
      held := by
        rw [grown]
        have held := inv.held.drop 1
        rwa [List.drop_drop] at held
      filled := by
        intro slot'
        show Function.update s.filled (s.outSlot c) false slot' = true ↔ _
        rw [grown, slot]
        by_cases same : slot' = s.received.length % 2 ^ k
        · rw [same, Function.update_self]
          refine ⟨nofun, ?_⟩
          rintro ⟨j, low, high, there⟩
          have := Ring.window_inj (show s.received.length ≤ j by omega)
            (Nat.lt_of_lt_of_le high inv.written_le) (Nat.le_refl _) (by omega) there
          omega
        · rw [Function.update_of_ne same, inv.filled]
          constructor
          · rintro ⟨j, low, high, there⟩
            have other : j ≠ s.received.length := fun old => same (old ▸ there.symm)
            exact ⟨j, by omega, high, there⟩
          · rintro ⟨j, low, high, there⟩
            exact ⟨j, by omega, high, there⟩ }

theorem release (inv : Inv k esize s I O) {c : Dequeue} (consumer : s.consumer = some c)
    (all : c.done = c.len.toNat) : Inv k esize (s.release c) I (O + c.len.toNat) := by
  have batch := inv.consuming c consumer
  have window := inv.window
  exact
    { inv with
      shape := ⟨inv.shape.mask, inv.shape.esize, inv.shape.fits⟩
      out := by
        show (s.queue.out + c.len).toNat = _
        rw [UInt32.toNat_add, inv.out, Nat.mod_add_mod]
      delivered := by simpa [Spsc.release, consumer, all] using inv.delivered
      window := ⟨by omega, by omega⟩
      producing := by
        intro p producer
        have := inv.producing p producer
        omega
      consuming := by rintro c' ⟨⟩ }

/-- **Every step of either thread keeps the invariant.** -/
theorem step (inv : Inv k esize s I O) (turn : Turn) (stepped : s.step turn = some t) :
    ∃ I O, Inv k esize t I O := by
  cases turn with
  | enqueue src len =>
      rw [Spsc.step] at stepped
      split at stepped
      next idle =>
        cases stepped
        exact ⟨I, O, inv.accept (Option.isNone_iff_eq_none.1 idle) src len⟩
      next => cases stepped
  | copyIn =>
      obtain ⟨p, producer, stepped⟩ := Option.bind_eq_some_iff.1 stepped
      split at stepped
      next more =>
        cases stepped
        exact ⟨I, O, inv.copyIn producer more⟩
      next => cases stepped
  | publish =>
      obtain ⟨p, producer, stepped⟩ := Option.bind_eq_some_iff.1 stepped
      split at stepped
      next => cases stepped
      next all =>
        cases stepped
        have batch := inv.producing p producer
        exact ⟨_, O, inv.publish producer (by omega)⟩
  | dequeue len =>
      rw [Spsc.step] at stepped
      split at stepped
      next idle =>
        cases stepped
        exact ⟨I, O, inv.take (Option.isNone_iff_eq_none.1 idle) len⟩
      next => cases stepped
  | copyOut =>
      obtain ⟨c, consumer, stepped⟩ := Option.bind_eq_some_iff.1 stepped
      split at stepped
      next more =>
        cases stepped
        exact ⟨I, O, inv.copyOut consumer more⟩
      next => cases stepped
  | release =>
      obtain ⟨c, consumer, stepped⟩ := Option.bind_eq_some_iff.1 stepped
      split at stepped
      next => cases stepped
      next all =>
        cases stepped
        have batch := inv.consuming c consumer
        exact ⟨I, _, inv.release consumer (by omega)⟩

/-- Between calls the queue stores what is accepted and not yet received. -/
theorem stores (inv : Inv k esize s I O) (producer : s.producer = none)
    (consumer : s.consumer = none) : Stores k esize s.queue O (s.accepted.drop O) where
  shape := inv.shape
  bytes := inv.bytes
  out := inv.out
  in_ := by
    have window := inv.window
    rw [List.length_drop, inv.published, Nat.add_sub_cancel' window.1, inv.in_]
  room := by
    have window := inv.window
    rw [List.length_drop, inv.published]
    omega
  whole := fun x member => inv.whole x (List.mem_of_mem_drop member)
  held := by
    have delivered : s.received.length = O := by simpa [consumer] using inv.delivered
    have held := inv.held
    simp only [written, producer, Option.elim_none, List.append_nil, delivered] at held
    exact Ring.holds_flatten (fun x member => inv.whole x (List.mem_of_mem_drop member))
      (inv.bytes ▸ inv.shape.esize) (Nat.two_pow_pos k) held

end Inv

/-- A new queue, seen by two threads that have not begun. -/
theorem start_inv {k esize : Nat} {q : MixQueue} (stores : Stores k esize q 0 []) :
    Inv k esize (start q) 0 0 where
  shape := stores.shape
  bytes := stores.bytes
  in_ := stores.in_
  out := stores.out
  published := rfl
  delivered := rfl
  window := ⟨Nat.le_refl _, Nat.zero_le _⟩
  producing := by rintro p ⟨⟩
  consuming := by rintro c ⟨⟩
  received := List.nil_prefix
  whole := by simp [start]
  held := Ring.Holds.nil
  filled := by
    intro slot
    simp [start, written]

end Spsc

section Reachable

variable {size esize : UInt32} {k : Nat} (large : 1 ≤ k)
  (capacity : size.toNat / esize.toNat = 2 ^ k) {buffer : Bytes} {q : MixQueue}
  (init : mixQueueInit size esize buffer = some q) {turns : List Spsc.Turn} {s : Spsc}
  (ran : exec Spsc.step (Spsc.start q) turns = some s)

include large capacity init ran

theorem spsc_inv : ∃ I O, Spsc.Inv k esize.toNat s I O := by
  obtain ⟨q', init', stores⟩ := mixQueueInit_stores large capacity buffer
  obtain rfl := Option.some.inj (init'.symm.trans init)
  exact Transition.exec_invariant (I := fun s => ∃ I O, Spsc.Inv k esize.toNat s I O)
    (fun s turn t ⟨I, O, inv⟩ stepped => inv.step turn stepped) ran ⟨0, 0, Spsc.start_inv stores⟩

/-- When neither side is in a call, the queue contains what is accepted and not received. -/
theorem spsc_contents (producer : s.producer = none) (consumer : s.consumer = none) :
    s.received ++ s.queue.contents = s.accepted := by
  obtain ⟨I, O, inv⟩ := spsc_inv large capacity init ran
  have delivered : s.received.length = O := by simpa [consumer] using inv.delivered
  rw [(inv.stores producer consumer).contents_eq, List.prefix_iff_eq_take.1 inv.received, delivered,
    List.take_append_drop]

/-- **Any interleaving of one producer and one consumer is safe.** -/
theorem mixQueue_spsc_safe : s.Safe := by
  obtain ⟨I, O, inv⟩ := spsc_inv large capacity init ran
  exact inv.safe

end Reachable

/-- Two elements of three get in; the consumer's snapshot is of one of them, as the producer has
not published the second batch. -/
theorem mixQueue_spsc_safe_of_two :
    ∃ q s, mixQueueInit 2 1 (fun _ => 0) = some q ∧
      exec Spsc.step (Spsc.start q)
        [.enqueue (fun _ => 7) 1, .copyIn, .publish, .enqueue (fun _ => 8) 2, .dequeue 2,
          .copyIn, .copyOut] = some s ∧ s.Safe := by
  have init : mixQueueInit 2 1 (fun _ => 0) = some
      { in_ := 0
        out := 0
        mask := 1
        esize := 1
        data := fun _ => 0 } := rfl
  have ran := show exec Spsc.step (Spsc.start ⟨0, 0, 1, 1, fun _ => 0⟩)
    [.enqueue (fun _ => 7) 1, .copyIn, .publish, .enqueue (fun _ => 8) 2, .dequeue 2,
      .copyIn, .copyOut] = some _ from rfl
  exact ⟨_, _, init, ran, mixQueue_spsc_safe (k := 1) (by decide) (by decide) init ran⟩

end Mixdk
