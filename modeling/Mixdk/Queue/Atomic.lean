/-
# Queue.Atomic -- a call takes effect all at once

A producer and a consumer run step by step against each other, but each call has a point at
which it takes effect: `mix_enqueue` when it moves `in`, or when it read `out` if it found no
room; `mix_dequeue` when it moves `out`, or when it read an `in` that showed nothing.  The
number of elements is fixed before that point, from a snapshot.  So a call may take fewer than
it could by then, though not none (`Fifo.Allows`).

MIXDK asks for one element at a time, and then nothing is left open: the queue is a list of
limited length, with a push that is refused when the list is full and a pop that is refused when
it is empty (`Fifo.One`).  The pipeline has its queues as such lists.
-/
import Mixdk.Lib.Linearizable
import Mixdk.Queue.Spsc

namespace Mixdk

set_option autoImplicit false

open Transition (exec)
open Linear

/-! ## What the callers see -/

inductive Side
  | producer
  | consumer
deriving DecidableEq

inductive QueueCall
  | enqueue (src : Bytes) (len : UInt32)
  | dequeue (len : UInt32)

inductive QueueAnswer
  | enqueued (n : Nat)
  | dequeued (xs : List Element)

/-- A FIFO of at most `cap` elements.  A call moves at most what it asks for and what there is, or
is room for; it moves nothing only when it can move nothing. -/
inductive Fifo.Allows (cap esize : Nat) :
    List Element → QueueCall → QueueAnswer → List Element → Prop
  | enqueue {xs : List Element} {src : Bytes} {len : UInt32} {n : Nat}
      (upto : n ≤ min len.toNat (cap - xs.length))
      (refused : n = 0 → min len.toNat (cap - xs.length) = 0) :
      Fifo.Allows cap esize xs (.enqueue src len) (.enqueued n) (xs ++ elements esize src n)
  | dequeue {xs : List Element} {len : UInt32} {n : Nat} (upto : n ≤ min len.toNat xs.length)
      (refused : n = 0 → min len.toNat xs.length = 0) :
      Fifo.Allows cap esize xs (.dequeue len) (.dequeued (xs.take n)) (xs.drop n)

/-- A FIFO of at most `cap` elements, one element at a time. -/
inductive Fifo.One (cap esize : Nat) :
    List Element → QueueCall → QueueAnswer → List Element → Prop
  | push {xs : List Element} {src : Bytes} (room : xs.length < cap) :
      Fifo.One cap esize xs (.enqueue src 1) (.enqueued 1) (xs ++ [elementAt esize src 0])
  | full {xs : List Element} {src : Bytes} (full : cap ≤ xs.length) :
      Fifo.One cap esize xs (.enqueue src 1) (.enqueued 0) xs
  | pop {x : Element} {xs : List Element} :
      Fifo.One cap esize (x :: xs) (.dequeue 1) (.dequeued [x]) xs
  | empty : Fifo.One cap esize [] (.dequeue 1) (.dequeued []) []

def QueueCall.one : QueueCall → Prop
  | .enqueue _ len | .dequeue len => len = 1

/-- Of calls for one element the FIFO leaves nothing open. -/
theorem Fifo.Allows.one {cap esize : Nat} {xs ys : List Element} {call : QueueCall}
    {answer : QueueAnswer} (allows : Fifo.Allows cap esize xs call answer ys) (one : call.one) :
    Fifo.One cap esize xs call answer ys := by
  have single : (1 : UInt32).toNat = 1 := rfl
  cases allows with
  | @enqueue src len n upto refused =>
      obtain rfl : len = 1 := one
      rw [single] at upto refused
      rcases Nat.lt_or_ge xs.length cap with room | full
      · obtain rfl : n = 1 := by omega
        rw [show elements esize src 1 = [elementAt esize src 0] by simp [elements]]
        exact .push room
      · obtain rfl : n = 0 := by omega
        rw [show elements esize src 0 = [] from rfl, List.append_nil]
        exact .full full
  | @dequeue len n upto refused =>
      obtain rfl : len = 1 := one
      rw [single] at upto refused
      cases xs with
      | nil =>
          rw [List.take_nil, List.drop_nil]
          exact .empty
      | cons x xs =>
          obtain rfl : n = 1 := by
            simp only [List.length_cons] at upto refused
            omega
          exact .pop

/-! ## The events of a turn -/

namespace Spsc

/-- What a turn is for the callers, and which call takes effect in it. -/
def emit (s : Spsc) : Turn → List (Event Side QueueCall QueueAnswer)
  | .enqueue src len =>
      .call .producer (.enqueue src len) ::
        if uintMin len s.queue.unused = 0 then [.effect .producer] else []
  | .publish =>
      s.producer.elim [] fun p =>
        (if p.len = 0 then [] else [.effect .producer]) ++
          [.ret .producer (.enqueued p.len.toNat)]
  | .dequeue len =>
      .call .consumer (.dequeue len) ::
        if s.queue.in_ - s.queue.out = 0 then [.effect .consumer, .ret .consumer (.dequeued [])]
        else []
  | .release =>
      s.consumer.elim [] fun c =>
        [.effect .consumer,
          .ret .consumer (.dequeued (s.received.drop (s.received.length - c.len.toNat)))]
  | .copyIn | .copyOut => []

/-- What the callers see of a run. -/
def history (s : Spsc) (turns : List Turn) : List (Event Side QueueCall QueueAnswer) :=
  (trace step emit s turns).filter Event.visible

/-- The producer, and its call as the FIFO has it.  A call that found no room has taken effect. -/
inductive ProducerAt : Option Enqueue → Phase QueueCall QueueAnswer → Prop
  | idle : ProducerAt none .idle
  | refused {p : Enqueue} (zero : p.len = 0) : ProducerAt (some p) (.done (.enqueued 0))
  | under {p : Enqueue} {len : UInt32} (some_ : p.len ≠ 0) (upto : p.len.toNat ≤ len.toNat) :
      ProducerAt (some p) (.called (.enqueue p.src len))

inductive ConsumerAt : Option Dequeue → Phase QueueCall QueueAnswer → Prop
  | idle : ConsumerAt none .idle
  | under {c : Dequeue} {len : UInt32} (upto : c.len.toNat ≤ len.toNat)
      (some_ : c.len = 0 → len = 0) : ConsumerAt (some c) (.called (.dequeue len))

/-- The list is what is published and not released. -/
structure Shown (k esize : Nat) (s : Spsc) (xs : List Element)
    (threads : Side → Phase QueueCall QueueAnswer) (I O : Nat) : Prop where
  inv : Inv k esize s I O
  stored : xs = s.accepted.drop O
  producer : ProducerAt s.producer (threads .producer)
  consumer : ConsumerAt s.consumer (threads .consumer)

namespace Shown

variable {k esize I O : Nat} {s t : Spsc} {xs : List Element}
  {threads : Side → Phase QueueCall QueueAnswer}

theorem length (shown : Shown k esize s xs threads I O) : xs.length = I - O := by
  rw [shown.stored, List.length_drop, shown.inv.published]

/-- The producer goes on to `phase`; the consumer is where it was. -/
theorem produce (shown : Shown k esize s xs threads I O) (phase : Phase QueueCall QueueAnswer)
    (consumer : t.consumer = s.consumer) :
    ConsumerAt t.consumer (Function.update threads .producer phase .consumer) := by
  rw [consumer, Function.update_of_ne (by decide)]
  exact shown.consumer

theorem consume (shown : Shown k esize s xs threads I O) (phase : Phase QueueCall QueueAnswer)
    (producer : t.producer = s.producer) :
    ProducerAt t.producer (Function.update threads .consumer phase .producer) := by
  rw [producer, Function.update_of_ne (by decide)]
  exact shown.producer

theorem idle_producer (shown : Shown k esize s xs threads I O) (idle : s.producer = none) :
    threads .producer = .idle := by
  have at_ := shown.producer
  rw [idle] at at_
  generalize threads .producer = phase at at_
  cases at_
  rfl

theorem idle_consumer (shown : Shown k esize s xs threads I O) (idle : s.consumer = none) :
    threads .consumer = .idle := by
  have at_ := shown.consumer
  rw [idle] at at_
  generalize threads .consumer = phase at at_
  cases at_
  rfl

/-- A `mix_enqueue` begins.  Where it finds no room it has taken effect. -/
theorem accept (shown : Shown k esize s xs threads I O) (idle : s.producer = none) (src : Bytes)
    (len : UInt32) : ∃ threads',
      Legal (Fifo.Allows (2 ^ k) esize) xs threads (s.emit (.enqueue src len)) xs threads' ∧
        Shown k esize (s.accept src len) xs threads' I O := by
  have free := shown.idle_producer idle
  have kept := shown.inv.accept idle src len
  have batch : (s.accept src len).producer =
      some { src := src, len := uintMin len s.queue.unused, done := 0 } := rfl
  have least : (uintMin len s.queue.unused).toNat = min len.toNat (2 ^ k - xs.length) := by
    rw [toNat_uintMin, shown.inv.unused_eq, shown.length]
  have self := Function.update_self (f := threads) Side.producer (.called (.enqueue src len))
  by_cases none_ : uintMin len s.queue.unused = 0
  · have zero : min len.toNat (2 ^ k - xs.length) = 0 := by
      rw [← least, none_]
      rfl
    have takes : Fifo.Allows (2 ^ k) esize xs (.enqueue src len) (.enqueued 0)
        (xs ++ elements esize src 0) := .enqueue (Nat.zero_le _) fun _ => zero
    rw [show elements esize src 0 = [] from rfl, List.append_nil] at takes
    refine ⟨Function.update threads .producer (.done (.enqueued 0)), ?_, kept, shown.stored, ?_,
      shown.produce _ rfl⟩
    · rw [emit, if_pos none_]
      refine .call free (.effect self takes ?_)
      rw [Function.update_idem]
      exact .nil
    · rw [batch, Function.update_self]
      exact .refused none_
  · refine ⟨Function.update threads .producer (.called (.enqueue src len)), ?_, kept, shown.stored,
      ?_, shown.produce _ rfl⟩
    · rw [emit, if_neg none_]
      exact .call free .nil
    · rw [batch, Function.update_self]
      refine .under none_ ?_
      rw [least]
      exact Nat.min_le_left _ _

/-- A `mix_enqueue` returns.  What it copied is in the list now. -/
theorem publish (shown : Shown k esize s xs threads I O) {p : Enqueue}
    (producer : s.producer = some p) (all : p.done = p.len.toNat) : ∃ ys threads',
      Legal (Fifo.Allows (2 ^ k) esize) xs threads (s.emit .publish) ys threads' ∧
        Shown k esize (s.publish p) ys threads' (I + p.len.toNat) O := by
  have batch := shown.inv.producing p producer
  have window := shown.inv.window
  have published := shown.inv.published
  have kept := shown.inv.publish producer all
  have stored : (s.publish p).accepted.drop O = xs ++ elements esize p.src p.len.toNat := by
    rw [show (s.publish p).accepted =
        s.accepted ++ elements s.queue.esize.toNat p.src p.len.toNat from rfl,
      List.drop_append_of_le_length (by omega), ← shown.stored, shown.inv.bytes]
  have ready : ProducerAt (s.publish p).producer
      (Function.update threads .producer .idle .producer) := by
    rw [Function.update_self]
    exact .idle
  refine ⟨xs ++ elements esize p.src p.len.toNat, Function.update threads .producer .idle, ?_,
    kept, stored.symm, ready, shown.produce _ rfl⟩
  have at_ := shown.producer
  rw [producer] at at_
  simp only [emit, producer, Option.elim_some]
  generalize phase : threads .producer = here at at_
  cases at_ with
  | refused zero =>
      rw [if_pos zero, List.nil_append, zero, show elements esize p.src (0 : UInt32).toNat = []
        from rfl, List.append_nil]
      exact .ret phase .nil
  | @under _ len some_ upto =>
      have nonzero : p.len.toNat ≠ 0 := fun zero => some_ (UInt32.toNat_inj.1 zero)
      have room : p.len.toNat ≤ min len.toNat (2 ^ k - xs.length) := by
        rw [shown.length]
        omega
      rw [if_neg some_]
      exact .answer phase (.enqueue room fun zero => absurd zero nonzero)

/-- A `mix_dequeue` begins.  Where it sees an empty queue it returns. -/
theorem take (shown : Shown k esize s xs threads I O) (idle : s.consumer = none) (len : UInt32) :
    ∃ threads', Legal (Fifo.Allows (2 ^ k) esize) xs threads (s.emit (.dequeue len)) xs threads' ∧
      Shown k esize (s.take len) xs threads' I O := by
  have free := shown.idle_consumer idle
  have kept := shown.inv.take idle len
  have self := Function.update_self (f := threads) Side.consumer (.called (.dequeue len))
  have count := shown.inv.sub_eq
  have size := shown.length
  by_cases empty : s.queue.in_ - s.queue.out = 0
  · have nil : xs = [] := by
      rw [empty] at count
      exact List.eq_nil_of_length_eq_zero (size.trans count.symm)
    have same : s.take len = s := by
      unfold Spsc.take
      exact if_pos empty
    rw [same] at kept ⊢
    have takes : Fifo.Allows (2 ^ k) esize [] (.dequeue len) (.dequeued ([].take 0))
        ([].drop 0) := .dequeue (Nat.zero_le _) fun _ => Nat.min_zero _
    refine ⟨Function.update (Function.update threads .consumer (.called (.dequeue len))) .consumer
      .idle, ?_, kept, shown.stored, ?_, ?_⟩
    · rw [emit, if_pos empty, nil]
      exact .call free (.answer self takes)
    · rw [Function.update_idem]
      exact shown.consume _ rfl
    · rw [Function.update_self, idle]
      exact .idle
  · have begun : (s.take len).consumer =
        some { len := uintMin len (s.queue.in_ - s.queue.out), done := 0 } := by
      unfold Spsc.take
      dsimp only
      rw [if_neg empty]
      rfl
    have rest : (s.take len).producer = s.producer ∧ (s.take len).accepted = s.accepted := by
      unfold Spsc.take
      dsimp only
      rw [if_neg empty]
      exact ⟨rfl, rfl⟩
    refine ⟨Function.update threads .consumer (.called (.dequeue len)), ?_, kept, ?_,
      shown.consume _ rest.1, ?_⟩
    · rw [emit, if_neg empty]
      exact .call free .nil
    · rw [rest.2]
      exact shown.stored
    · rw [begun, Function.update_self]
      have least := toNat_uintMin len (s.queue.in_ - s.queue.out)
      refine .under (least ▸ Nat.min_le_left _ _) fun zero => ?_
      have stored : (s.queue.in_ - s.queue.out).toNat ≠ 0 :=
        fun none_ => empty (UInt32.toNat_inj.1 none_)
      dsimp only at zero
      rw [zero] at least
      apply UInt32.toNat_inj.1
      simp only [UInt32.toNat_zero] at least ⊢
      omega

/-- A `mix_dequeue` returns.  What it copied is not in the list any more. -/
theorem release (shown : Shown k esize s xs threads I O) {c : Dequeue}
    (consumer : s.consumer = some c) (all : c.done = c.len.toNat) : ∃ ys threads',
      Legal (Fifo.Allows (2 ^ k) esize) xs threads (s.emit .release) ys threads' ∧
        Shown k esize (s.release c) ys threads' I (O + c.len.toNat) := by
  have batch := shown.inv.consuming c consumer
  have delivered := shown.inv.delivered
  have kept := shown.inv.release consumer all
  rw [consumer, Option.elim_some, all] at delivered
  have stored : (s.release c).accepted.drop (O + c.len.toNat) = xs.drop c.len.toNat := by
    rw [shown.stored, List.drop_drop]
    rfl
  have received : s.received.drop (s.received.length - c.len.toNat) = xs.take c.len.toNat := by
    rw [delivered, Nat.add_sub_cancel, shown.stored,
      List.prefix_iff_eq_take.1 shown.inv.received, delivered, List.drop_take,
      Nat.add_sub_cancel_left]
  have ready : ConsumerAt (s.release c).consumer
      (Function.update threads .consumer .idle .consumer) := by
    rw [Function.update_self]
    exact .idle
  refine ⟨xs.drop c.len.toNat, Function.update threads .consumer .idle, ?_, kept, stored.symm,
    shown.consume _ rfl, ready⟩
  have at_ := shown.consumer
  rw [consumer] at at_
  simp only [emit, consumer, Option.elim_some, received]
  generalize phase : threads .consumer = here at at_
  cases at_ with
  | @under _ len upto some_ =>
      have size := shown.length
      refine .answer phase (.dequeue ?_ fun zero => ?_)
      · omega
      · rw [some_ (UInt32.toNat_inj.1 zero)]
        exact Nat.zero_min _

/-- A copy in progress is no event. -/
theorem copyIn (shown : Shown k esize s xs threads I O) {p : Enqueue}
    (producer : s.producer = some p) (more : p.done < p.len.toNat) :
    Shown k esize (s.copyIn p) xs threads I O := by
  have at_ := shown.producer
  rw [producer] at at_
  refine ⟨shown.inv.copyIn producer more, shown.stored, ?_, shown.consumer⟩
  show ProducerAt (some { p with done := p.done + 1 }) (threads .producer)
  generalize threads .producer = phase at at_ ⊢
  cases at_ with
  | refused zero => exact .refused zero
  | under some_ upto => exact .under (p := { p with done := p.done + 1 }) some_ upto

theorem copyOut (shown : Shown k esize s xs threads I O) {c : Dequeue}
    (consumer : s.consumer = some c) (more : c.done < c.len.toNat) :
    Shown k esize (s.copyOut c) xs threads I O := by
  have at_ := shown.consumer
  rw [consumer] at at_
  refine ⟨shown.inv.copyOut consumer more, shown.stored, shown.producer, ?_⟩
  show ConsumerAt (some { c with done := c.done + 1 }) (threads .consumer)
  generalize threads .consumer = phase at at_ ⊢
  cases at_ with
  | under upto some_ => exact .under (c := { c with done := c.done + 1 }) upto some_

end Shown

/-- **Every turn is legal for the FIFO.** -/
theorem simulates (k esize : Nat) : Simulates step emit (Fifo.Allows (2 ^ k) esize)
    fun s xs threads => ∃ I O, Shown k esize s xs threads I O := by
  rintro s turn t xs threads ⟨I, O, shown⟩ stepped
  cases turn with
  | enqueue src len =>
      rw [step] at stepped
      split at stepped
      next idle =>
        cases stepped
        obtain ⟨threads', legal, after⟩ :=
          shown.accept (Option.isNone_iff_eq_none.1 idle) src len
        exact ⟨xs, threads', legal, I, O, after⟩
      next => cases stepped
  | copyIn =>
      obtain ⟨p, producer, stepped⟩ := Option.bind_eq_some_iff.1 stepped
      split at stepped
      next more =>
        cases stepped
        exact ⟨xs, threads, .nil, I, O, shown.copyIn producer more⟩
      next => cases stepped
  | publish =>
      obtain ⟨p, producer, stepped⟩ := Option.bind_eq_some_iff.1 stepped
      split at stepped
      next => cases stepped
      next all =>
        cases stepped
        have batch := shown.inv.producing p producer
        obtain ⟨ys, threads', legal, after⟩ := shown.publish producer (by omega)
        exact ⟨ys, threads', legal, _, O, after⟩
  | dequeue len =>
      rw [step] at stepped
      split at stepped
      next idle =>
        cases stepped
        obtain ⟨threads', legal, after⟩ := shown.take (Option.isNone_iff_eq_none.1 idle) len
        exact ⟨xs, threads', legal, I, O, after⟩
      next => cases stepped
  | copyOut =>
      obtain ⟨c, consumer, stepped⟩ := Option.bind_eq_some_iff.1 stepped
      split at stepped
      next more =>
        cases stepped
        exact ⟨xs, threads, .nil, I, O, shown.copyOut consumer more⟩
      next => cases stepped
  | release =>
      obtain ⟨c, consumer, stepped⟩ := Option.bind_eq_some_iff.1 stepped
      split at stepped
      next => cases stepped
      next all =>
        cases stepped
        have batch := shown.inv.consuming c consumer
        obtain ⟨ys, threads', legal, after⟩ := shown.release consumer (by omega)
        exact ⟨ys, threads', legal, I, _, after⟩

/-- The call that a turn begins asks for one element. -/
def Turn.one : Turn → Prop
  | .enqueue _ len | .dequeue len => len = 1
  | .copyIn | .publish | .copyOut | .release => True

/-- The calls of a run are those its turns begin. -/
theorem one_of_call {s : Spsc} {turns : List Turn} (one : ∀ turn ∈ turns, turn.one) {i : Side}
    {call : QueueCall} (member : .call i call ∈ trace step emit s turns) : call.one := by
  induction turns generalizing s with
  | nil => cases member
  | cons turn turns ih =>
      obtain ⟨first, rest⟩ := List.forall_mem_cons.1 one
      rcases List.mem_append.1 member with here | later
      · cases turn with
        | enqueue src len =>
            rcases List.mem_cons.1 here with same | last
            · cases same
              exact first
            · split at last <;> simp at last
        | dequeue len =>
            rcases List.mem_cons.1 here with same | last
            · cases same
              exact first
            · split at last <;> simp at last
        | publish =>
            cases producer : s.producer with
            | none => simp [emit, producer] at here
            | some p =>
                simp only [emit, producer, Option.elim_some] at here
                split at here <;> simp at here
        | release =>
            cases consumer : s.consumer <;> simp [emit, consumer] at here
        | copyIn | copyOut => cases here
      · cases stepped : s.step turn with
        | none =>
            rw [stepped] at later
            cases later
        | some t =>
            rw [stepped] at later
            exact ih rest later

end Spsc

section

variable {size esize : UInt32} {k : Nat} (large : 1 ≤ k)
  (capacity : size.toNat / esize.toNat = 2 ^ k) {buffer : Bytes} {q : MixQueue}
  (init : mixQueueInit size esize buffer = some q) {turns : List Spsc.Turn} {s : Spsc}
  (ran : exec Spsc.step (Spsc.start q) turns = some s)

include large capacity init ran

/-- **Every interleaving is linearizable, and with one element a call the queue is a list with a
push and a pop.** -/
theorem mixQueue_linearizable :
    Linearizable (Fifo.Allows (2 ^ k) esize.toNat) [] ((Spsc.start q).history turns) ∧
      ((∀ turn ∈ turns, turn.one) →
        Linearizable (Fifo.One (2 ^ k) esize.toNat) [] ((Spsc.start q).history turns)) := by
  obtain ⟨q', init', stores⟩ := mixQueueInit_stores large capacity buffer
  obtain rfl := Option.some.inj (init'.symm.trans init)
  have start : ∃ I O, Spsc.Shown k esize.toNat (Spsc.start q') [] (fun _ => .idle) I O :=
    ⟨0, 0, Spsc.start_inv stores, rfl, .idle, .idle⟩
  obtain ⟨xs, threads, legal, -⟩ := (Spsc.simulates k esize.toNat).legal start ran
  refine ⟨legal.linearizable, fun one => ?_⟩
  have exact_ := legal.mono (P := QueueCall.one) (fun _ _ _ _ one allows => allows.one one)
    (fun _ _ at_ => nomatch at_) fun _ _ member => Spsc.one_of_call one member
  exact exact_.linearizable

end

/-- Calls of one element on a queue of two: the second push begins before the first pop, and comes
back after it. -/
theorem mixQueue_linearizable_of_two :
    ∃ q, mixQueueInit 2 1 (fun _ => 0) = some q ∧
      Linearizable (Fifo.One 2 1) [] ((Spsc.start q).history
        [.enqueue (fun _ => 7) 1, .copyIn, .publish, .enqueue (fun _ => 8) 1, .dequeue 1, .copyIn,
          .copyOut, .release, .dequeue 1, .publish]) := by
  have init : mixQueueInit 2 1 (fun _ => 0) = some
      { in_ := 0
        out := 0
        mask := 1
        esize := 1
        data := fun _ => 0 } := rfl
  have ran := show exec Spsc.step (Spsc.start ⟨0, 0, 1, 1, fun _ => 0⟩)
    [.enqueue (fun _ => 7) 1, .copyIn, .publish, .enqueue (fun _ => 8) 1, .dequeue 1, .copyIn,
      .copyOut, .release, .dequeue 1, .publish] = some _ from rfl
  have both := mixQueue_linearizable (k := 1) (by decide) (by decide) init ran
  exact ⟨_, init, both.2 (by simp [Spsc.Turn.one])⟩

end Mixdk
