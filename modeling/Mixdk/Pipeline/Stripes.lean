/-
# Pipeline.Stripes -- an SSD task cut into stripes

`mix_post_task_to_buffer` steps a queue index from stripe to stripe and mixes `int` and
`size_t`: `offset`, `end` and `len` are `int`s, the fields of a task are `size_t`s, and a
comparison or a difference of the two is made in `size_t`.  `stripeLoop` is that arithmetic;
on the blocks of the SSD it posts what `mixPostTaskToBuffer` counts in natural numbers
(`stripeLoop_eq`).

The posts cover the task in order, each within one stripe (`Stripes`), and a block's queue
depends on the block alone, so tasks that touch the same block meet in one queue, in the
order in which they were scheduled (`stripes_in_order`).
-/
import Mixdk.Core.Scheduler

namespace Mixdk

set_option autoImplicit false

/-! ## The source's integers -/

/-- `int` to `size_t`. -/
def ofInt64 (z : Int) : Nat := (z % 2 ^ 64).toNat

/-- The loop of `mix_post_task_to_buffer` within a number of turns: `none` where it takes
more. -/
def stripeLoop (task : IoTask) (end_ : Int) : Nat → Int → Int → Option (List (Int × IoTask))
  | 0, _, _ => none
  | turns + 1, offset, idx =>
      if offset < end_ then
        let postOffset := ofInt64 offset
        let len : Int := toInt32 (STRIPE_SIZE - postOffset % STRIPE_SIZE)
        let postLen := ofInt64 (if ofInt64 len > ofInt64 (end_ - postOffset) then end_ - offset else len)
        let offset := toInt32 (u64 (ofInt64 offset + postLen))
        let postTask :=
          { task with
            offset := postOffset
            len := postLen
            buf := task.buf + ofInt64 (postOffset - task.offset) * BLOCK_SIZE
            queueIdx := 0 }
        (stripeLoop task end_ turns offset ((idx + 1).tmod SEGMENT_NUM)).map fun posts =>
          (idx, postTask) :: posts
      else some []

/-- A post with its queue as the `int` that picks it. -/
def atIndex (part : SegIdx × IoTask) : Int × IoTask := ((part.1 : Nat), part.2)

/-- `mix_post_task_to_buffer` within a number of turns. -/
def stripePosts (task : IoTask) (turns : Nat) : Option (List (Int × IoTask)) :=
  let offset := toInt32 task.offset
  let end_ := toInt32 (u64 (task.offset + task.len))
  let idx := toInt32 (task.offset / STRIPE_SIZE % SEGMENT_NUM)
  stripeLoop task end_ turns offset idx

theorem ofInt64_natCast {n : Nat} (small : n < 2 ^ 64) : ofInt64 n = n := by
  unfold ofInt64
  omega

/-- On the SSD nothing is lost, and the loop ends. -/
theorem stripeLoop_eq {task : IoTask} (inside : task.offset + task.len < 2 ^ 31)
    {fuel offset : Nat} {idx : SegIdx} (low : task.offset ≤ offset)
    (high : offset ≤ task.offset + task.len) (enough : task.offset + task.len ≤ offset + fuel) :
    stripeLoop task (task.offset + task.len : Nat) (fuel + 1) offset (idx : Nat) =
      some ((postTaskLoop task fuel offset idx).map atIndex) := by
  induction fuel generalizing offset idx with
  | zero =>
      have ended : ¬ (offset : Int) < (task.offset + task.len : Nat) := by omega
      rw [stripeLoop, if_neg ended]
      rfl
  | succ fuel ih =>
      by_cases more : offset < task.offset + task.len
      · have more' : (offset : Int) < (task.offset + task.len : Nat) := by omega
        have here : ofInt64 offset = offset := ofInt64_natCast (by omega)
        have room : STRIPE_SIZE - offset % STRIPE_SIZE ≤ 4 := Nat.sub_le _ _
        have len : toInt32 (STRIPE_SIZE - offset % STRIPE_SIZE) =
            (STRIPE_SIZE - offset % STRIPE_SIZE : Nat) := toInt32_of_lt (by omega)
        have width : ofInt64 ((STRIPE_SIZE - offset % STRIPE_SIZE : Nat) : Int) =
            STRIPE_SIZE - offset % STRIPE_SIZE := ofInt64_natCast (by omega)
        have left : ofInt64 (((task.offset + task.len : Nat) : Int) - offset) =
            task.offset + task.len - offset := by
          rw [← Int.ofNat_sub (Nat.le_of_lt more)]
          exact ofInt64_natCast (by omega)
        have skipped : ofInt64 ((offset : Int) - task.offset) = offset - task.offset := by
          rw [← Int.ofNat_sub low]
          exact ofInt64_natCast (by omega)
        generalize posted : (if task.offset + task.len - offset < STRIPE_SIZE - offset % STRIPE_SIZE
          then task.offset + task.len - offset else STRIPE_SIZE - offset % STRIPE_SIZE) = n
        have bounds : 0 < n ∧ offset + n ≤ task.offset + task.len := by
          have := Nat.mod_lt offset (show 0 < STRIPE_SIZE by decide)
          split at posted <;> omega
        have shorter : task.offset + task.len ≤ offset + n + fuel := by
          have := bounds.1
          omega
        have next : ((idx : Nat) + 1 : Int).tmod SEGMENT_NUM = ((idx + 1) % SEGMENT_NUM : Nat) := rfl
        have count : ofInt64 (if ofInt64 ((STRIPE_SIZE - offset % STRIPE_SIZE : Nat) : Int) >
            ofInt64 (((task.offset + task.len : Nat) : Int) - offset)
            then ((task.offset + task.len : Nat) : Int) - offset
            else (STRIPE_SIZE - offset % STRIPE_SIZE : Nat)) = n := by
          rw [width, left, ← posted, apply_ite ofInt64, width, left]
        have advanced : toInt32 (u64 (offset + n)) = (offset + n : Nat) := by
          have word : u64 (offset + n) = offset + n := Nat.mod_eq_of_lt (by omega)
          rw [word]
          exact toInt32_of_lt (by omega)
        rw [stripeLoop, if_pos more', postTaskLoop, if_pos more]
        simp only [here, len, count, skipped, advanced, next, posted]
        have rest := @ih (offset + n) ⟨(idx + 1) % SEGMENT_NUM, Nat.mod_lt _ (by decide)⟩
          (Nat.le_add_right_of_le low) bounds.2 shorter
        rw [rest]
        rfl
      · have ended : ¬ (offset : Int) < (task.offset + task.len : Nat) := by omega
        rw [stripeLoop, if_neg ended, postTaskLoop, if_neg more]
        rfl

/-- `mix_post_task_to_buffer` ends after a turn for each block, and posts what
`mixPostTaskToBuffer` says. -/
theorem stripePosts_eq {task : IoTask} (inside : task.offset + task.len ≤ SSD_BLOCK_NUM) :
    stripePosts task (task.len + 1) =
      some ((mixPostTaskToBuffer task).map atIndex) := by
  have small : task.offset + task.len < 2 ^ 31 := by
    simp only [SSD_BLOCK_NUM] at inside
    omega
  have start : toInt32 task.offset = task.offset := toInt32_of_lt (by omega)
  have ends : toInt32 (u64 (task.offset + task.len)) = (task.offset + task.len : Nat) := by
    have word : u64 (task.offset + task.len) = task.offset + task.len := Nat.mod_eq_of_lt (by omega)
    rw [word]
    exact toInt32_of_lt small
  have queue : toInt32 (task.offset / STRIPE_SIZE % SEGMENT_NUM) =
      ((segmentOf task.offset : SegIdx) : Nat) :=
    toInt32_of_lt (Nat.lt_of_lt_of_le (segmentOf task.offset).isLt (by decide))
  rw [stripePosts]
  simp only [start, ends, queue]
  exact stripeLoop_eq small (Nat.le_refl _) (Nat.le_add_right _ _) (Nat.le_refl _)

/-! ## The posts of a task -/

/-- The tasks have blocks, and follow each other without a gap from block `from_` up to block
`upto`. -/
def Consecutive : Nat → List IoTask → Nat → Prop
  | from_, [], upto => from_ = upto
  | from_, task :: rest, upto =>
      task.offset = from_ ∧ 0 < task.len ∧ Consecutive (from_ + task.len) rest upto

/-- The posts of a task, in order. -/
structure Stripes (task : IoTask) (posts : List (SegIdx × IoTask)) : Prop where
  covers : Consecutive task.offset (posts.map Prod.snd) (task.offset + task.len)
  stripe : ∀ x ∈ posts, ∀ b, x.2.offset ≤ b → b < x.2.offset + x.2.len →
    b / STRIPE_SIZE = x.2.offset / STRIPE_SIZE
  queue : ∀ x ∈ posts, (x.1 : Nat) = x.2.offset / STRIPE_SIZE % SEGMENT_NUM
  buf : ∀ x ∈ posts, x.2.buf = task.buf + (x.2.offset - task.offset) * BLOCK_SIZE
  same : ∀ x ∈ posts, x.2.opcode = task.opcode ∧ x.2.type = task.type ∧ x.2.ret = task.ret

theorem Splits.consecutive {task : IoTask} {offset : Nat} {posts : List (SegIdx × IoTask)}
    (splits : Splits task offset posts) :
    Consecutive offset (posts.map Prod.snd) (task.offset + task.len) := by
  induction splits with
  | done => rfl
  | post _ _ stripe _ ih => exact ⟨rfl, stripe.some_block, ih⟩

theorem mixPostTaskToBuffer_stripes (task : IoTask) : Stripes task (mixPostTaskToBuffer task) := by
  have splits := mixPostTaskToBuffer_splits task
  refine ⟨splits.consecutive, fun x member b low high => ?_, fun x member => ?_, fun x member => ?_,
    fun x member => ?_⟩
  · obtain ⟨-, -, -, -, -, -, stripe⟩ := splits.member member
    have inside := stripe.inside
    simp only [STRIPE_SIZE] at inside ⊢
    omega
  · obtain ⟨o, len, rfl, -⟩ := splits.member member
    rfl
  · obtain ⟨o, len, rfl, -⟩ := splits.member member
    rfl
  · obtain ⟨o, len, rfl, -⟩ := splits.member member
    exact ⟨rfl, rfl, rfl⟩

/-! ## Tasks that touch a block -/

/-- The task reads or writes block `b`. -/
def IoTask.Touches (task : IoTask) (b : Nat) : Prop := task.offset ≤ b ∧ b < task.offset + task.len

/-- What buffer queue `q` is posted for SSD tasks scheduled one after another. -/
def bufferPosts (q : SegIdx) (tasks : List IoTask) : List IoTask :=
  ((tasks.flatMap mixPostTaskToBuffer).filter fun part => part.1 = q).map Prod.snd

theorem bufferPosts_append (q : SegIdx) (xs ys : List IoTask) :
    bufferPosts q (xs ++ ys) = bufferPosts q xs ++ bufferPosts q ys := by
  simp [bufferPosts]

theorem bufferPosts_cons (q : SegIdx) (task : IoTask) (rest : List IoTask) :
    bufferPosts q (task :: rest) = bufferPosts q [task] ++ bufferPosts q rest :=
  bufferPosts_append q [task] rest

/-- A block's part of a task goes to the block's queue. -/
theorem touches_post {task : IoTask} {b : Nat} (touches : task.Touches b) :
    ∃ x ∈ bufferPosts (segmentOf b) [task], x.Touches b := by
  have splits := mixPostTaskToBuffer_splits task
  obtain ⟨x, member, low, high⟩ := splits.covers touches.1 touches.2
  obtain ⟨-, -, -, -, -, -, stripe⟩ := splits.member member
  refine ⟨x.2, List.mem_map.2 ⟨x, List.mem_filter.2 ⟨by simpa using member, ?_⟩, rfl⟩, low, high⟩
  exact decide_eq_true (stripe.of_block low high).symm

/-- The parts with a block go to the block's queue only. -/
theorem post_of_touches {tasks : List IoTask} {q : SegIdx} {b : Nat} {x : IoTask}
    (member : x ∈ bufferPosts q tasks) (touches : x.Touches b) : q = segmentOf b := by
  obtain ⟨part, inside, rfl⟩ := List.mem_map.1 member
  obtain ⟨posted, queue⟩ := List.mem_filter.1 inside
  obtain ⟨task, -, here⟩ := List.mem_flatMap.1 posted
  obtain ⟨-, -, -, -, -, -, stripe⟩ := (mixPostTaskToBuffer_splits task).member here
  rw [← of_decide_eq_true queue]
  exact (stripe.of_block touches.1 touches.2).symm

/-- **SSD tasks are cut into stripes, and tasks that touch the same block meet in its queue in
the order they were scheduled.** -/
theorem stripes_in_order {tasks : List IoTask}
    (inside : ∀ task ∈ tasks, task.offset + task.len ≤ SSD_BLOCK_NUM) :
    (∀ task ∈ tasks, stripePosts task (task.len + 1) =
        some ((mixPostTaskToBuffer task).map atIndex) ∧
      Stripes task (mixPostTaskToBuffer task)) ∧
    ∀ before task between other after, tasks = before ++ task :: (between ++ other :: after) →
      ∀ b, task.Touches b → other.Touches b →
        (∃ x ∈ bufferPosts (segmentOf b) [task], ∃ y ∈ bufferPosts (segmentOf b) [other],
          x.Touches b ∧ y.Touches b ∧ [x, y].Sublist (bufferPosts (segmentOf b) tasks)) ∧
        ∀ q, ∀ x ∈ bufferPosts q tasks, x.Touches b → q = segmentOf b := by
  refine ⟨fun task member => ⟨stripePosts_eq (inside task member), mixPostTaskToBuffer_stripes task⟩,
    ?_⟩
  rintro before task between other after rfl b first second
  refine ⟨?_, fun q x member touches => post_of_touches member touches⟩
  obtain ⟨x, inTask, touchesX⟩ := touches_post first
  obtain ⟨y, inOther, touchesY⟩ := touches_post second
  refine ⟨x, inTask, y, inOther, touchesX, touchesY, ?_⟩
  rw [bufferPosts_append, bufferPosts_cons, bufferPosts_append, bufferPosts_cons _ other]
  have pair : [x, y].Sublist (bufferPosts (segmentOf b) [task] ++ bufferPosts (segmentOf b) [other]) :=
    (List.singleton_sublist.2 inTask).append (List.singleton_sublist.2 inOther)
  refine pair.trans (List.sublist_append_of_sublist_right ?_)
  refine (List.Sublist.refl _).append (List.sublist_append_of_sublist_right ?_)
  exact List.sublist_append_left _ _

/-- Two tasks that share block 5, each of two stripes. -/
theorem stripes_in_order_of_two :
    let task : IoTask := ⟨0, 4, 2, 0, MIX_WRITE, SSD_TASK, 0⟩
    let other : IoTask := ⟨0, 5, 5, 0, MIX_READ, SSD_TASK, 1⟩
    (∃ x ∈ bufferPosts (segmentOf 5) [task], ∃ y ∈ bufferPosts (segmentOf 5) [other],
        x.Touches 5 ∧ y.Touches 5 ∧ [x, y].Sublist (bufferPosts (segmentOf 5) [task, other])) ∧
      ∀ q, ∀ x ∈ bufferPosts q [task, other], x.Touches 5 → q = segmentOf 5 := by
  intro task other
  have inside : ∀ t ∈ [task, other], t.offset + t.len ≤ SSD_BLOCK_NUM := by decide
  exact (stripes_in_order inside).2 [] task [] other [] rfl 5
    (by unfold IoTask.Touches; decide) (by unfold IoTask.Touches; decide)

end Mixdk
