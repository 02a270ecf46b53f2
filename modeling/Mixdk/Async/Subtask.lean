/-
# Async.Subtask -- what one task makes an nvm_worker do

Two facts about `nvmWorkerSsdTask` that the order of the workers rests on.  It reads
and changes the index of its own segment alone (`nvmWorkerSsdTask_onto`).  And what
it decides to do, as a list of operations (`works`), stays in the segment and in the
memory of the task, with no block of a read filled twice (`Prepared`).

A read is cut into runs of blocks that are not buffered, each posted to the SSD queue
as one task, and buffered blocks (`Delivers`).
-/
import Mixdk.Async.Work
import Mixdk.Index.Operations
import Mathlib.Data.List.Induction

namespace Mixdk

set_option autoImplicit false

/-! ## The index of another segment does not matter -/

/-- The same result, on an index with the same segment `idx`. -/
def WriteResult.onto (md : Metadata) (idx : SegIdx) : WriteResult → WriteResult
  | .done md' actions ret => .done (md.setSegment idx (md'.segments idx)) actions ret
  | .full => .full
  | .spins => .spins

section

variable {md md' : Metadata} {idx : SegIdx}

theorem WriteResult.onto_setSegment (result : WriteResult) (seg : Segment) :
    result.onto (md.setSegment idx seg) idx = result.onto md idx := by
  cases result with
  | done md' actions ret => simp only [onto, Metadata.setSegment_setSegment]
  | full | spins => rfl

theorem mixBufferBlockTest_congr (size : md'.perBlockNum = md.perBlockNum)
    (seg : md'.segments idx = md.segments idx) (offset : Nat) :
    mixBufferBlockTest md' offset idx = mixBufferBlockTest md offset idx := by
  simp only [mixBufferBlockTest, size, seg]

theorem redirectReadLoop_congr (size : md'.perBlockNum = md.perBlockNum)
    (seg : md'.segments idx = md.segments idx) (task : IoTask) (n i : Nat) (readTask : IoTask) :
    redirectReadLoop md' task idx n i readTask = redirectReadLoop md task idx n i readTask := by
  induction n generalizing i readTask with
  | zero => rfl
  | succ n ih =>
      simp only [redirectReadLoop, mixBufferBlockTest_congr size seg, ih,
        Metadata.bufferBlock_congr size]

theorem mixGetNextFreeBlock_onto (size : md'.perBlockNum = md.perBlockNum)
    (seg : md'.segments idx = md.segments idx) :
    mixGetNextFreeBlock md' idx = (mixGetNextFreeBlock md idx).map fun got =>
      (got.1, md'.setSegment idx (got.2.segments idx)) := by
  simp only [mixGetNextFreeBlock, size, seg]
  split
  · rw [Option.map_some, ← seg, Metadata.setSegment_same]
  · rw [Option.map_map]
    apply Option.map_congr
    intro found _
    simp only [Function.comp_apply, Metadata.setSegment_self]

theorem mixWriteRedirectBlockmeta_onto (seg : md'.segments idx = md.segments idx) (offset : Nat)
    (value : Int) : mixWriteRedirectBlockmeta md' idx offset value =
      md'.setSegment idx ((mixWriteRedirectBlockmeta md idx offset value).segments idx) := by
  simp only [mixWriteRedirectBlockmeta, seg]
  split <;> rw [Metadata.setSegment_self]

theorem clearBlockLoop_onto (size : md'.perBlockNum = md.perBlockNum)
    (seg : md'.segments idx = md.segments idx) (n offset : Nat) :
    clearBlockLoop idx n offset md' =
      (md'.setSegment idx ((clearBlockLoop idx n offset md).1.segments idx),
        (clearBlockLoop idx n offset md).2) := by
  induction n generalizing md md' offset with
  | zero => rw [clearBlockLoop, clearBlockLoop, ← seg, Metadata.setSegment_same]
  | succ n ih =>
      simp only [clearBlockLoop, seg, size]
      split
      · rw [← seg, Metadata.setSegment_same]
      · have same : ∀ key bit, (clearEntry md' idx key bit).segments idx =
            (clearEntry md idx key bit).segments idx := by
          intro key bit
          simp only [clearEntry, Metadata.setSegment_self, seg]
        have again : ∀ key bit s, (clearEntry md' idx key bit).setSegment idx s =
            md'.setSegment idx s := by
          intro key bit s
          simp only [clearEntry, Metadata.setSegment_setSegment]
        have sizes : ∀ key bit, (clearEntry md' idx key bit).perBlockNum =
            (clearEntry md idx key bit).perBlockNum := fun _ _ => size
        rw [ih (sizes _ _) (same _ _), again, Metadata.bufferBlock_congr size]

theorem writeToNewSlot_onto (size : md'.perBlockNum = md.perBlockNum)
    (seg : md'.segments idx = md.segments idx) (task : IoTask) (offset : Int) :
    writeToNewSlot md' task idx offset = (writeToNewSlot md task idx offset).onto md' idx := by
  have unchanged : (mixWriteRedirectBlockmeta md idx (u32 task.offset) offset).perBlockNum =
      md.perBlockNum := by
    simp only [mixWriteRedirectBlockmeta]
    split <;> rfl
  simp only [writeToNewSlot, writeToSlot, WriteResult.onto, mixWriteRedirectBlockmeta_onto seg]
  rw [Metadata.bufferBlock_congr unchanged]
  rw [Metadata.bufferBlock_congr (Metadata.setSegment_perBlockNum ..),
    Metadata.bufferBlock_congr size]

theorem mixGetNextFreeBlock_perBlockNum {offset : Int}
    (got : mixGetNextFreeBlock md idx = some (offset, md')) : md'.perBlockNum = md.perBlockNum := by
  simp only [mixGetNextFreeBlock] at got
  split at got
  · cases got
    rfl
  · obtain ⟨found, -, eq⟩ := Option.map_eq_some_iff.1 got
    cases eq
    rfl

theorem redirectWrite_onto (size : md'.perBlockNum = md.perBlockNum)
    (seg : md'.segments idx = md.segments idx) (task : IoTask) :
    redirectWrite md' task idx = (redirectWrite md task idx).onto md' idx := by
  have same : md'.setSegment idx (md.segments idx) = md' := by
    rw [← seg, Metadata.setSegment_same]
  simp only [redirectWrite, mixBufferBlockTest_congr size seg]
  split
  · split
    · rw [mixGetNextFreeBlock_onto size seg]
      cases got : mixGetNextFreeBlock md idx with
      | none => rfl
      | some found =>
          obtain ⟨offset, between⟩ := found
          simp only [Option.map_some]
          split
          · rfl
          · have kept := mixGetNextFreeBlock_perBlockNum got
            have size' : (md'.setSegment idx (between.segments idx)).perBlockNum =
                between.perBlockNum := size.trans kept.symm
            rw [writeToNewSlot_onto size' (Metadata.setSegment_self ..),
              WriteResult.onto_setSegment]
    · simp only [writeToSlot, WriteResult.onto, same, Metadata.bufferBlock_congr size]
  · simp only [mixClearBlock, clearBlockLoop_onto size seg, WriteResult.onto]

/-- **A task's result depends on the index of its own segment, and changes no other.** -/
theorem nvmWorkerSsdTask_onto (size : md'.perBlockNum = md.perBlockNum)
    (seg : md'.segments idx = md.segments idx) (task : IoTask) :
    nvmWorkerSsdTask md' task idx = (nvmWorkerSsdTask md task idx).onto md' idx := by
  have same : md'.setSegment idx (md.segments idx) = md' := by
    rw [← seg, Metadata.setSegment_same]
  simp only [nvmWorkerSsdTask]
  split
  · simp only [redirectRead, redirectReadLoop_congr size seg, WriteResult.onto, same]
  · split
    · rw [redirectWrite_onto size seg]
      cases redirectWrite md task idx <;> rfl
    · simp only [WriteResult.onto, same]

theorem nvmWorkerSsdTask_done {task : IoTask} {actions : List Action} {ret : Nat}
    (done : nvmWorkerSsdTask md task idx = .done md' actions ret) :
    md' = md.setSegment idx (md'.segments idx) := by
  have onto : nvmWorkerSsdTask md task idx = (nvmWorkerSsdTask md task idx).onto md idx :=
    nvmWorkerSsdTask_onto rfl rfl task
  rw [done] at onto
  injection onto

/-! ## Reads -/

/-- The operations an action stands for, when the SSD's part of a posted task is done in its
place. -/
def Action.works : Action → List Work
  | .postTaskToSsd task => [.stage task, .complete task]
  | a => [.action a]

/-- The task `redirect_read` posts for `len` blocks from block `i` of its own task on. -/
def readPart (task : IoTask) (i len : Nat) : IoTask :=
  { buf := task.buf + BLOCK_SIZE * i, len := len, offset := task.offset + i, ret := task.ret,
    opcode := MIX_READ, type := 0, queueIdx := 0 }

/-- The actions fetch the blocks `i` to `n - 1` of a read, each one once and in order: from the
buffer where the index has it, else from the SSD. -/
inductive Delivers (md : Metadata) (task : IoTask) (idx : SegIdx) (n : Nat) :
    Nat → List Action → Prop
  | done : Delivers md task idx n n []
  | buffer {i : Nat} {rest : List Action} (inside : i < n)
      (found : mixBufferBlockTest md (task.offset + i) idx ≠ -1)
      (later : Delivers md task idx n (i + 1) rest) :
      Delivers md task idx n i (.readFromBuffer (task.buf + i * BLOCK_SIZE)
        (md.bufferBlock idx (ofInt32 (mixBufferBlockTest md (task.offset + i) idx))) :: rest)
  | ssd {i len : Nat} {rest : List Action} (some_block : 0 < len) (inside : i + len ≤ n)
      (absent : ∀ k, i ≤ k → k < i + len → mixBufferBlockTest md (task.offset + k) idx = -1)
      (later : Delivers md task idx n (i + len) rest) :
      Delivers md task idx n i (.postTaskToSsd (readPart task i len) :: rest)

/-- The loop of `redirect_read` with `len` blocks in the task it is building: they are the last
ones before block `i`. -/
theorem redirectReadLoop_delivers {task : IoTask} {n i : Nat} (len : Nat) {readTask : IoTask}
    (bound : task.offset + i + n < NO_OFFSET)
    (built : (len = 0 ∧ readTask.offset = NO_OFFSET ∧ readTask.len = 0 ∧
        readTask.opcode = MIX_READ ∧ readTask.type = 0 ∧ readTask.queueIdx = 0) ∨
      (0 < len ∧ len ≤ i ∧ readTask = readPart task (i - len) len))
    (absent : ∀ k, i - len ≤ k → k < i → mixBufferBlockTest md (task.offset + k) idx = -1) :
    Delivers md task idx (i + n) (i - len) (redirectReadLoop md task idx n i readTask).1 := by
  have start : ∀ {i len : Nat}, 0 < len → len ≤ i → task.offset + i < NO_OFFSET →
      ¬ (readPart task (i - len) len).offset = NO_OFFSET := by
    intro i len some_block upto bound same
    have : task.offset + (i - len) = NO_OFFSET := same
    omega
  induction n generalizing i len readTask with
  | zero =>
      simp only [redirectReadLoop, Nat.add_zero]
      rcases built with ⟨rfl, unset, -⟩ | ⟨some_block, upto, rfl⟩
      · rw [if_neg (not_not.2 unset)]
        exact .done
      · rw [if_pos (start some_block upto (by omega))]
        have ends : i - len + len = i := by omega
        refine .ssd some_block (by omega) (fun k low high => absent k low (by omega)) ?_
        rw [ends]
        exact .done
  | succ n ih =>
      have shift : i + (n + 1) = i + 1 + n := by omega
      simp only [redirectReadLoop]
      rw [shift]
      by_cases missing : mixBufferBlockTest md (task.offset + i) idx = -1
      · -- one more block for the SSD
        rw [if_pos missing]
        have more : ∀ k, i - len ≤ k → k < i + 1 →
            mixBufferBlockTest md (task.offset + k) idx = -1 := by
          intro k low high
          by_cases last : k = i
          · rw [last]
            exact missing
          · exact absent k low (by omega)
        rcases built with ⟨rfl, unset, -, opcode, type, queueIdx⟩ | ⟨some_block, upto, rfl⟩
        · rw [if_pos unset]
          have begun : ({ readTask with
              offset := task.offset + i, len := 1,
              buf := task.buf + BLOCK_SIZE * (task.offset + i - task.offset),
              ret := task.ret } : IoTask) = readPart task (i + 1 - 1) 1 := by
            rw [Nat.add_sub_cancel_left, Nat.add_sub_cancel, opcode, type, queueIdx, readPart]
          exact ih 1 (by omega) (.inr ⟨Nat.one_pos, by omega, begun⟩)
            fun k low high => more k (by omega) high
        · rw [if_neg (start some_block upto (by omega))]
          have longer : i + 1 - (len + 1) = i - len := by omega
          have same : Delivers md task idx (i + 1 + n) (i + 1 - (len + 1))
              (redirectReadLoop md task idx n (i + 1) (readPart task (i - len) (len + 1))).1 := by
            apply ih (len + 1) (by omega)
            · exact .inr ⟨by omega, by omega, by rw [longer]⟩
            · exact fun k low high => more k (by omega) high
          rw [longer] at same
          exact same
      · -- a buffered block; what was built is posted first
        rw [if_neg missing]
        have later : Delivers md task idx (i + 1 + n) (i + 1)
            (redirectReadLoop md task idx n (i + 1)
              { readTask with offset := NO_OFFSET, len := 0 }).1 := by
          apply ih 0 (by omega)
          · refine .inl ⟨rfl, rfl, rfl, ?_⟩
            rcases built with ⟨-, -, -, rest⟩ | ⟨-, -, rfl⟩
            · exact rest
            · exact ⟨rfl, rfl, rfl⟩
          · exact fun k low high => absurd high (by omega)
        rcases built with ⟨rfl, -, none, -⟩ | ⟨some_block, upto, rfl⟩
        · rw [if_neg (by omega)]
          exact .buffer (by omega) missing later
        · rw [if_pos (show 0 < (readPart task (i - len) len).len from some_block)]
          have ends : i - len + len = i := by omega
          refine .ssd some_block (by omega) (fun k low high => absent k low (by omega)) ?_
          rw [ends]
          exact .buffer (by omega) missing later

theorem redirectRead_delivers {task : IoTask} (inRange : InRange task) :
    Delivers md task idx task.len 0 (redirectRead md task idx).1 := by
  have bound : task.offset + 0 + task.len < NO_OFFSET := by
    have := inRange.2
    simp only [NO_ENTRY, NO_OFFSET] at *
    omega
  have delivers : Delivers md task idx (0 + task.len) 0 (redirectRead md task idx).1 :=
    redirectReadLoop_delivers 0 bound
    (.inl ⟨rfl, rfl, rfl, rfl, rfl, rfl⟩) (fun k low high => absurd high (by omega))
  rw [Nat.zero_add] at delivers
  exact delivers

/-! ## The operations of a task -/

/-- The operations of a list of actions, in order. -/
def works (actions : List Action) : List Work := actions.flatMap Action.works

/-- The memory a task of a buffer queue uses: a read fills it. -/
def taskClaim (task : IoTask) : MemClaim :=
  ⟨decide (opCode task = MIX_READ), task.buf, task.len⟩

/-- `y` comes later, and may overtake `x`: it is an action, and apart from `x`. -/
def Work.Before (x y : Work) : Prop := (∃ a, y = .action a) → x.claim.Apart y.claim

/-- A list of actions that keeps to the segment and to the memory of its task. -/
structure Prepared (P : Nat) (idx : SegIdx) (task : IoTask) (actions : List Action) : Prop where
  inSegment : ∀ w ∈ works actions, w.InSegment P idx
  within : ∀ w ∈ works actions, w.claim.Within (taskClaim task)
  apart : (works actions).Pairwise Work.Before

theorem apart_of_empty {c d : MemClaim} (empty : d.len = 0) : c.Apart d :=
  fun _ => .inr (.inl empty)

/-- One more action that uses no memory. -/
theorem Prepared.concat {P : Nat} {task : IoTask} {actions : List Action} {a : Action}
    (prepared : Prepared P idx task actions) (single : a.works = [.action a])
    (none : a.claim.len = 0) (inside : a.InSegment P idx) :
    Prepared P idx task (actions ++ [a]) := by
  have list : works (actions ++ [a]) = works actions ++ [.action a] := by
    simp [works, single]
  constructor
  · intro w member
    rw [list] at member
    rcases List.mem_append.1 member with early | last
    · exact prepared.inSegment w early
    · rw [List.mem_singleton.1 last]
      exact inside
  · intro w member
    rw [list] at member
    rcases List.mem_append.1 member with early | last
    · exact prepared.within w early
    · rw [List.mem_singleton.1 last]
      exact .inl none
  · rw [list]
    refine List.pairwise_append.2 ⟨prepared.apart, List.pairwise_singleton .., ?_⟩
    intro x _ y last _
    rw [List.mem_singleton.1 last]
    exact apart_of_empty none

theorem readPart_inStripe {task : IoTask} (stripe : InStripe idx task) {i len : Nat}
    (some_block : 0 < len) (inside : i + len ≤ task.len) : InStripe idx (readPart task i len) := by
  refine ⟨stripe.of_block (Nat.le_add_right _ _) ?_, some_block, ?_⟩
  · change task.offset + i < task.offset + task.len
    omega
  · have whole := stripe.inside
    change (task.offset + i) % STRIPE_SIZE + len ≤ STRIPE_SIZE
    simp only [STRIPE_SIZE] at whole ⊢
    omega

theorem readPart_claim (task : IoTask) (i len : Nat) :
    ssdClaim (readPart task i len) = ⟨true, task.buf + BLOCK_SIZE * i, len⟩ := by
  have op : MIX_READ &&& (MIX_READ ||| MIX_WRITE) = MIX_READ := by decide
  simp only [ssdClaim, readPart, op, decide_true]

theorem block_le {buf i j : Nat} (le : i ≤ j) : buf + i * BLOCK_SIZE ≤ buf + j * BLOCK_SIZE :=
  Nat.add_le_add_left (Nat.mul_le_mul_right _ le) _

/-- The blocks `i` to `n - 1` of a read use memory from block `i` on. -/
theorem Delivers.claims {task : IoTask} {n i : Nat} {actions : List Action}
    (delivers : Delivers md task idx n i actions) :
    ∀ w ∈ works actions, w.claim.dst = true ∧ task.buf + i * BLOCK_SIZE ≤ w.claim.buf ∧
      w.claim.buf + w.claim.len * BLOCK_SIZE ≤ task.buf + n * BLOCK_SIZE := by
  induction delivers with
  | done => exact fun _ member => by cases member
  | @buffer i rest inside found later ih =>
      intro w member
      simp only [works, List.flatMap_cons, List.mem_append] at member
      rcases member with here | there
      · rw [List.mem_singleton.1 here]
        refine ⟨rfl, Nat.le_refl _, ?_⟩
        change task.buf + i * BLOCK_SIZE + 1 * BLOCK_SIZE ≤ _
        simp only [BLOCK_SIZE]
        omega
      · obtain ⟨dst, low, high⟩ := ih w there
        exact ⟨dst, (block_le (Nat.le_succ i)).trans low, high⟩
  | @ssd i len rest some_block inside absent later ih =>
      intro w member
      simp only [works, List.flatMap_cons, List.mem_append] at member
      rcases member with here | there
      · have claim : w.claim = ⟨true, task.buf + BLOCK_SIZE * i, len⟩ := by
          simp only [Action.works, List.mem_cons, List.not_mem_nil, or_false] at here
          rcases here with rfl | rfl
          · exact readPart_claim task i len
          · exact readPart_claim task i len
        rw [claim]
        simp only [BLOCK_SIZE]
        refine ⟨trivial, ?_, ?_⟩
        · omega
        · omega
      · obtain ⟨dst, low, high⟩ := ih w there
        exact ⟨dst, (block_le (Nat.le_add_right i len)).trans low, high⟩

theorem Delivers.apart {task : IoTask} {n i : Nat} {actions : List Action}
    (delivers : Delivers md task idx n i actions) : (works actions).Pairwise Work.Before := by
  induction delivers with
  | done => exact .nil
  | @buffer i rest inside found later ih =>
      refine List.pairwise_cons.2 ⟨?_, ih⟩
      intro y member _ _
      have low := (later.claims y member).2.1
      refine .inr (.inr (.inl ?_))
      change task.buf + i * BLOCK_SIZE + 1 * BLOCK_SIZE ≤ _
      simp only [BLOCK_SIZE] at low ⊢
      omega
  | @ssd i len rest some_block inside absent later ih =>
      have first : ∀ y ∈ works rest, (ssdClaim (readPart task i len)).Apart y.claim := by
        intro y member _
        have low := (later.claims y member).2.1
        refine .inr (.inr (.inl ?_))
        rw [readPart_claim]
        simp only [BLOCK_SIZE] at low ⊢
        omega
      refine List.pairwise_cons.2 ⟨?_, List.pairwise_cons.2 ⟨?_, ih⟩⟩
      · intro y member action
        rcases List.mem_cons.1 member with rfl | later
        · obtain ⟨a, same⟩ := action
          cases same
        · exact first y later
      · intro y member _
        exact first y member

theorem Delivers.inSegment {task : IoTask} {n i : Nat} {actions : List Action}
    (ok : Indexed md.perBlockNum (md.segments idx)) (stripe : InStripe idx task)
    (upto : n ≤ task.len) (delivers : Delivers md task idx n i actions) :
    ∀ w ∈ works actions, w.InSegment md.perBlockNum idx := by
  induction delivers with
  | done => exact fun _ member => by cases member
  | @buffer i rest inside found later ih =>
      intro w member
      simp only [works, List.flatMap_cons, List.mem_append] at member
      rcases member with here | there
      · rw [List.mem_singleton.1 here]
        rw [ok.bufferBlockTest] at found ⊢
        cases look : (md.segments idx).hash.find? (u32 (task.offset + i)) with
        | none =>
            rw [look] at found
            exact absurd rfl found
        | some v =>
            have slot := ok.slot_small (ok.find?_eq_some_iff.1 look)
            simp only at slot
            have same : ofInt32 (v : Int) = v := ofInt32_of_lt (by omega)
            simp only [same]
            exact ⟨Nat.le_add_right _ _, Nat.add_lt_add_left slot.1 _⟩
      · exact ih w there
  | @ssd i len rest some_block inside absent later ih =>
      intro w member
      simp only [works, List.flatMap_cons, List.mem_append] at member
      rcases member with here | there
      · have part := readPart_inStripe stripe some_block (inside.trans upto)
        simp only [Action.works, List.mem_cons, List.not_mem_nil, or_false] at here
        rcases here with rfl | rfl
        · exact part
        · exact part
      · exact ih w there

theorem redirectRead_prepared {task : IoTask} (all : AllIndexed md) (inRange : InRange task)
    (stripe : InStripe idx task) (read : opCode task = MIX_READ) :
    Prepared md.perBlockNum idx task (redirectRead md task idx).1 := by
  have delivers : Delivers md task idx task.len 0 (redirectRead md task idx).1 :=
    redirectRead_delivers inRange
  refine ⟨delivers.inSegment (all idx) stripe (Nat.le_refl _), ?_, delivers.apart⟩
  intro w member
  obtain ⟨dst, low, high⟩ := delivers.claims w member
  refine .inr ⟨fun _ => decide_eq_true read, ?_, high⟩
  rw [Nat.zero_mul, Nat.add_zero] at low
  exact low

/-! ## Writes -/

/-- The ssd_worker takes a large write for a write. -/
theorem write_op {task : IoTask} (write : opCode task = MIX_WRITE) :
    task.opcode &&& (MIX_READ ||| MIX_WRITE) = MIX_WRITE := by
  have masks : (MIX_READ ||| MIX_WRITE ||| MIX_CLEAR) &&& (MIX_READ ||| MIX_WRITE) =
      MIX_READ ||| MIX_WRITE := by decide
  rw [← masks, ← Nat.and_assoc]
  change opCode task &&& (MIX_READ ||| MIX_WRITE) = MIX_WRITE
  rw [write]
  decide

theorem ssdClaim_write {task : IoTask} (write : opCode task = MIX_WRITE) :
    ssdClaim task = ⟨false, task.buf, task.len⟩ := by
  have notRead : ¬ MIX_WRITE = MIX_READ := by decide
  simp only [ssdClaim, write_op write, notRead, decide_false]

theorem bufferWrite_prepared {task : IoTask} {P v : Nat} (size : md.perBlockNum = P)
    (inside : v < P) (some_block : 0 < task.len) :
    Prepared P idx task (bufferWrite md task idx v) := by
  refine ⟨?_, ?_, List.pairwise_singleton ..⟩
  · intro w member
    rw [List.mem_singleton.1 member, ← size]
    exact ⟨Nat.le_add_right _ _, Nat.add_lt_add_left (size ▸ inside) _⟩
  · intro w member
    rw [List.mem_singleton.1 member]
    refine .inr ⟨nofun, Nat.le_refl _, ?_⟩
    exact Nat.add_le_add_left (Nat.mul_le_mul_right _ some_block) _

/-- Whatever a small write comes to, its one action is the copy into a slot. -/
theorem SmallWrite.done_prepared {task : IoTask} {actions : List Action} {ret : Nat}
    (all : AllIndexed md) (some_block : 0 < task.len)
    (outcome : SmallWrite md task idx (.done md' actions ret)) :
    Prepared md.perBlockNum idx task actions := by
  have whole := outcome
  cases outcome with
  | overwrite | enter | leak => exact bufferWrite_prepared rfl (whole.slot_lt all) some_block

theorem counted_prepared {task : IoTask} {result : WriteResult} {P ret : Nat}
    {actions : List Action} (done : result.counted = .done md' actions ret)
    (prepared : ∀ actions, result = .done md' actions ret → Prepared P idx task actions) :
    Prepared P idx task actions := by
  cases result with
  | done md'' acts ret' =>
      injection done with md_eq actions_eq ret_eq
      subst md_eq actions_eq ret_eq
      exact (prepared acts rfl).concat rfl rfl trivial
  | full | spins => cases done

/-- The SSD task of a large write, and the records it invalidates. -/
theorem largeWrite_prepared {task : IoTask} {P : Nat} (write : opCode task = MIX_WRITE)
    (stripe : InStripe idx task) {blocks : List Nat}
    (inside : ∀ b ∈ blocks, idx * P ≤ b ∧ b < idx * P + P) :
    Prepared P idx task (.postTaskToSsd task :: blocks.map .bufferClear) := by
  induction blocks using List.reverseRecOn with
  | nil =>
      refine ⟨?_, ?_, ?_⟩
      · intro w member
        simp only [works, List.map_nil, List.flatMap_cons, List.flatMap_nil, List.append_nil,
          Action.works, List.mem_cons, List.not_mem_nil, or_false] at member
        rcases member with rfl | rfl
        · exact stripe
        · exact stripe
      · intro w member
        have claim : w.claim = ssdClaim task := by
          simp only [works, List.map_nil, List.flatMap_cons, List.flatMap_nil, List.append_nil,
            Action.works, List.mem_cons, List.not_mem_nil, or_false] at member
          rcases member with rfl | rfl <;> rfl
        rw [claim, ssdClaim_write write]
        exact .inr ⟨nofun, Nat.le_refl _, Nat.le_refl _⟩
      · refine List.pairwise_pair.2 ?_
        rintro ⟨a, same⟩
        cases same
  | append_singleton blocks b ih =>
      rw [List.map_append, List.map_singleton, ← List.cons_append]
      have before := ih fun c member => inside c (List.mem_append_left _ member)
      exact before.concat rfl rfl (inside b (List.mem_append_right _ List.mem_cons_self))

/-- **What a task makes its nvm_worker do stays in the segment and in the task's memory.** -/
theorem nvmWorkerSsdTask_prepared {task : IoTask} {actions : List Action} {ret : Nat}
    (all : AllIndexed md) (inRange : InRange task) (stripe : InStripe idx task)
    (done : nvmWorkerSsdTask md task idx = .done md' actions ret) :
    Prepared md.perBlockNum idx task actions := by
  unfold nvmWorkerSsdTask at done
  by_cases read : opCode task = MIX_READ
  · simp only [if_pos read] at done
    injection done with _ eq
    rw [← eq]
    exact (redirectRead_prepared all inRange stripe read).concat rfl rfl trivial
  · by_cases write : opCode task = MIX_WRITE
    · simp only [if_neg read, if_pos write] at done
      refine counted_prepared done ?_
      intro actions done
      by_cases small : task.len ≤ WRITE_THRESHOLD
      · have outcome := redirectWrite_small (all idx) inRange small
        rw [done] at outcome
        exact outcome.done_prepared all inRange.1
      · rw [redirectWrite, if_neg small] at done
        injection done with _ eq
        obtain ⟨removed, blocks, cleared⟩ :=
          clearBlockLoop_spec task.len task.offset md (all idx) inRange.2
        rw [← eq, mixClearBlock, blocks]
        apply largeWrite_prepared write stripe
        intro b member
        obtain ⟨kv, out, rfl⟩ := List.mem_map.1 member
        have entry := cleared.entries.mem_iff.2 (List.mem_append_left _ out)
        have slot := ((all idx).slot_small entry).1
        exact ⟨Nat.le_add_right _ _, Nat.add_lt_add_left slot _⟩
    · simp only [if_neg read, if_neg write] at done
      injection done with _ eq
      rw [← eq]
      refine ⟨?_, ?_, .nil⟩
      · intro w member
        cases member
      · intro w member
        cases member

/-- Every task leaves the index in order. -/
theorem nvmWorkerSsdTask_allIndexed {task : IoTask} {actions : List Action} {ret : Nat}
    (all : AllIndexed md) (inRange : InRange task)
    (done : nvmWorkerSsdTask md task idx = .done md' actions ret) :
    AllIndexed md' ∧ md'.perBlockNum = md.perBlockNum := by
  unfold nvmWorkerSsdTask at done
  by_cases read : opCode task = MIX_READ
  · simp only [if_pos read] at done
    injection done with eq
    exact eq ▸ ⟨all, rfl⟩
  · by_cases write : opCode task = MIX_WRITE
    · simp only [if_neg read, if_pos write] at done
      by_cases small : task.len ≤ WRITE_THRESHOLD
      · have outcome := redirectWrite_small (all idx) inRange small
        cases result : redirectWrite md task idx with
        | done md'' acts ret' =>
            rw [result] at outcome done
            injection done with eq
            exact eq ▸ outcome.allIndexed all inRange
        | full | spins =>
            rw [result] at done
            cases done
      · rw [redirectWrite, if_neg small] at done
        injection done with eq
        obtain ⟨removed, -, cleared⟩ :=
          clearBlockLoop_spec task.len task.offset md (all idx) inRange.2
        exact eq ▸ ⟨all.cleared cleared, cleared.perBlockNum⟩
    · simp only [if_neg read, if_neg write] at done
      injection done with eq
      exact eq ▸ ⟨all, rfl⟩

end

/-- Only a write of at most one block finds its segment full. -/
theorem nvmWorkerSsdTask_full {md : Metadata} {task : IoTask} {idx : SegIdx}
    (full : nvmWorkerSsdTask md task idx = .full) :
    opCode task = MIX_WRITE ∧ task.len ≤ WRITE_THRESHOLD := by
  unfold nvmWorkerSsdTask at full
  split at full
  · cases full
  · split at full
    next write =>
      refine ⟨write, ?_⟩
      by_contra large
      rw [redirectWrite, if_neg large] at full
      cases full
    · cases full

end Mixdk
