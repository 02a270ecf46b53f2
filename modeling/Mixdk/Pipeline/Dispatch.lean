/-
# Pipeline.Dispatch -- which queue gets a block of a request

A request names blocks of one address space: below `SCHEDULER_THRESHOLD` they are blocks of
the NVM, from there on blocks of the SSD, counted from 0 again.  `IoTask.places` says where
each block of a request belongs, `Post.places` where a post puts its blocks.  There are four
NVM queues, so a post for any other is put nowhere.

`handle_task` knows requests that end before the threshold and requests that begin at it or
after it.  Any other keeps whatever its `type` was, and `do_schedule` goes by that
(`dispatched_iff`).
-/
import Mixdk.Pipeline.Stripes
import Mixdk.Pipeline.System

namespace Mixdk

set_option autoImplicit false

/-- A block of a device, and the address of its data. -/
inductive Place
  | nvm (block buf : Nat)
  | ssd (block buf : Nat)
deriving DecidableEq

/-- Where block `b` of a request belongs. -/
def IoTask.place (task : IoTask) (b : Nat) : Place :=
  let buf := task.buf + (b - task.offset) * BLOCK_SIZE
  if b < SCHEDULER_THRESHOLD then .nvm b buf else .ssd (b - SCHEDULER_THRESHOLD) buf

def IoTask.places (task : IoTask) : List Place :=
  (List.range' task.offset task.len).map task.place

/-- Where a post puts its blocks. -/
def Post.places : Post → List Place
  | .nvm task =>
      if task.queueIdx < SEGMENT_NUM then
        (List.range' task.offset task.len).map fun b =>
          .nvm b (task.buf + (b - task.offset) * BLOCK_SIZE)
      else []
  | .buffer _ task =>
      (List.range' task.offset task.len).map fun b =>
        .ssd b (task.buf + (b - task.offset) * BLOCK_SIZE)

/-- Each block of the request is in one task of one queue, where it belongs. -/
def Dispatched (task : IoTask) : Prop :=
  ((doSchedule (handleTask task)).flatMap Post.places).Perm task.places

instance (task : IoTask) : Decidable (Dispatched task) :=
  inferInstanceAs (Decidable (List.Perm _ _))

/-- The request lies on the SSD, or before the threshold with an NVM queue of its own number.
One that ends at the threshold is taken for an NVM task only where its `type` said so
before. -/
def Routed (task : IoTask) : Prop :=
  SCHEDULER_THRESHOLD ≤ task.offset ∨
    (task.queueIdx < SEGMENT_NUM ∧ (task.offset + task.len < SCHEDULER_THRESHOLD ∨
      (task.offset + task.len = SCHEDULER_THRESHOLD ∧ task.type = NVM_TASK)))

section

variable {task : IoTask}

/-- The posts for an SSD task put its blocks in order. -/
theorem Splits.places {offset : Nat} {parts : List (SegIdx × IoTask)}
    (splits : Splits task offset parts) :
    (parts.map fun part => Post.buffer part.1 part.2).flatMap Post.places =
      (List.range' offset (task.offset + task.len - offset)).map fun b =>
        .ssd b (task.buf + (b - task.offset) * BLOCK_SIZE) := by
  induction splits with
  | done => simp
  | @post offset len rest low high _ _ ih =>
      have whole : task.offset + task.len - offset =
          len + (task.offset + task.len - (offset + len)) := by omega
      rw [List.map_cons, List.flatMap_cons, ih, whole, ← List.range'_append_1, List.map_append]
      congr 1
      apply List.map_congr_left
      intro b inside
      have from_ : offset ≤ b := (List.mem_range'_1.1 inside).1
      have address : (offset - task.offset) * BLOCK_SIZE + (b - offset) * BLOCK_SIZE =
          (b - task.offset) * BLOCK_SIZE := by
        rw [← Nat.add_mul]
        congr 1
        omega
      simp only [postTask, Nat.add_assoc, address]

/-- Blocks before the threshold belong to the NVM. -/
theorem places_nvm (before : task.offset + task.len ≤ SCHEDULER_THRESHOLD) :
    task.places = (List.range' task.offset task.len).map fun b =>
      .nvm b (task.buf + (b - task.offset) * BLOCK_SIZE) := by
  apply List.map_congr_left
  intro b inside
  obtain ⟨-, upto⟩ := List.mem_range'_1.1 inside
  rw [IoTask.place, if_pos (by omega)]

/-- Blocks from the threshold on belong to the SSD. -/
theorem places_ssd (after : SCHEDULER_THRESHOLD ≤ task.offset) :
    task.places = (List.range' (task.offset - SCHEDULER_THRESHOLD) task.len).map fun b =>
      .ssd b (task.buf + (b - (task.offset - SCHEDULER_THRESHOLD)) * BLOCK_SIZE) := by
  have shifted : List.range' task.offset task.len =
      (List.range' (task.offset - SCHEDULER_THRESHOLD) task.len).map (SCHEDULER_THRESHOLD + ·) := by
    rw [List.map_add_range', Nat.add_sub_cancel' after]
  rw [IoTask.places, shifted, List.map_map]
  apply List.map_congr_left
  intro b inside
  obtain ⟨from_, -⟩ := List.mem_range'_1.1 inside
  have here : ¬ SCHEDULER_THRESHOLD + b < SCHEDULER_THRESHOLD := by omega
  have distance : SCHEDULER_THRESHOLD + b - task.offset =
      b - (task.offset - SCHEDULER_THRESHOLD) := by omega
  simp only [Function.comp_apply, IoTask.place, if_neg here, Nat.add_sub_cancel_left, distance]

theorem Routed.dispatched (some_block : 0 < task.len) (routed : Routed task) :
    Dispatched task := by
  unfold Dispatched
  rcases routed with after | ⟨queue, before | ⟨atEnd, type⟩⟩
  · have handled : handleTask task =
        { task with offset := task.offset - SCHEDULER_THRESHOLD, type := SSD_TASK } := by
      rw [handleTask, if_neg (by omega), if_pos after]
    rw [handled, doSchedule_ssd rfl, (mixPostTaskToBuffer_splits _).places, places_ssd after]
    simp
  · have handled : handleTask task = { task with type := NVM_TASK } := if_pos before
    rw [handled, doSchedule_nvm rfl, places_nvm (Nat.le_of_lt before), List.flatMap_singleton,
      Post.places, if_pos queue]
  · have handled : handleTask task = task := by
      rw [handleTask, if_neg (by omega), if_neg (by omega)]
    rw [handled, doSchedule_nvm type, places_nvm (Nat.le_of_eq atEnd), List.flatMap_singleton,
      Post.places, if_pos queue]

/-- A request before the threshold or across it whose type is not an NVM task's, or that has
no NVM queue, is put nowhere or on the SSD. -/
theorem not_dispatched (some_block : 0 < task.len) (notRouted : ¬ Routed task) :
    ¬ Dispatched task := by
  intro dispatched
  unfold Routed at notRouted
  obtain ⟨before, noQueue⟩ := not_or.1 notRouted
  -- the first block belongs to the NVM
  have first : Place.nvm task.offset task.buf ∈ (doSchedule (handleTask task)).flatMap Post.places := by
    refine dispatched.mem_iff.2 (List.mem_map.2 ⟨task.offset, ?_, ?_⟩)
    · exact List.mem_range'_1.2 ⟨Nat.le_refl _, by omega⟩
    · rw [IoTask.place, if_pos (by omega), Nat.sub_self, Nat.zero_mul, Nat.add_zero]
  obtain ⟨post, posted, inPost⟩ := List.mem_flatMap.1 first
  by_cases short : task.offset + task.len < SCHEDULER_THRESHOLD
  · have full : ¬ task.queueIdx < SEGMENT_NUM := fun queue => noQueue ⟨queue, .inl short⟩
    have handled : handleTask task = { task with type := NVM_TASK } := if_pos short
    rw [handled, doSchedule_nvm rfl, List.mem_singleton] at posted
    rw [posted, Post.places, if_neg full] at inPost
    cases inPost
  · have handled : handleTask task = task := by rw [handleTask, if_neg short, if_neg before]
    rw [handled] at posted
    by_cases nvm : task.type = NVM_TASK
    · rw [doSchedule_nvm nvm, List.mem_singleton] at posted
      have queue : task.queueIdx < SEGMENT_NUM := by
        by_contra full
        rw [posted, Post.places, if_neg full] at inPost
        cases inPost
      have across : task.offset + task.len ≠ SCHEDULER_THRESHOLD :=
        fun atEnd => noQueue ⟨queue, .inr ⟨atEnd, nvm⟩⟩
      -- the block at the threshold belongs to the SSD
      have second : task.place SCHEDULER_THRESHOLD ∈
          (doSchedule (handleTask task)).flatMap Post.places :=
        dispatched.mem_iff.2 (List.mem_map_of_mem (List.mem_range'_1.2 ⟨by omega, by omega⟩))
      rw [handled, doSchedule_nvm nvm, List.flatMap_singleton, Post.places, if_pos queue, IoTask.place,
        if_neg (Nat.lt_irrefl _)] at second
      obtain ⟨b, -, same⟩ := List.mem_map.1 second
      cases same
    · by_cases ssd : task.type = SSD_TASK
      · rw [doSchedule_ssd ssd] at posted
        obtain ⟨part, -, rfl⟩ := List.mem_map.1 posted
        obtain ⟨b, -, same⟩ := List.mem_map.1 inPost
        cases same
      · rw [doSchedule, if_neg nvm, if_neg ssd] at posted
        cases posted

/-- The last block before the threshold, in a record whose type is still zero. -/
theorem lastNvmBlock_not_dispatched : ¬ Dispatched ⟨0, 1, 1928764, 0, MIX_WRITE, 0, 0⟩ := by
  decide +kernel

/-- **A request is dispatched whole exactly when it is routed.** -/
theorem dispatched_iff (some_block : 0 < task.len) : Dispatched task ↔ Routed task :=
  ⟨fun dispatched => by_contra fun notRouted => not_dispatched some_block notRouted dispatched,
    Routed.dispatched some_block⟩

end

theorem acrossSubmitQueues_dispatched :
    Dispatched ⟨0, 6, 1928766, 0, MIX_WRITE, 0, 9⟩ ↔
      Routed ⟨0, 6, 1928766, 0, MIX_WRITE, 0, 9⟩ :=
  dispatched_iff (by decide)

end Mixdk
