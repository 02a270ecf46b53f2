/-
# Core.Scheduler -- from a request to tasks of the buffer queues

`handle_task` of `scheduler.c` and `mix_post_task_to_buffer` of `nvm_worker.c`.  A
request for the SSD is cut at the borders of the stripes of four blocks, and stripe
`s` goes to segment `s % 4`.

`mix_post_task_to_buffer` keeps `task->offset` and the end of the request in an
`int`.  A block of the SSD is below `SSD_BLOCK_NUM`, far from `INT_MAX`, so the model
counts in `Nat`.  The loop advances by at least one block a turn; its fuel is the
length of the request.
-/
import Mixdk.Core.Worker

namespace Mixdk

set_option autoImplicit false

/-- `threshold` of `scheduler.c`: the first block of the SSD. -/
def SCHEDULER_THRESHOLD : Nat := 1928765

/-- `stripe_size` -/
def STRIPE_SIZE : Nat := 4

def handleTask (task : IoTask) : IoTask :=
  if task.offset + task.len < SCHEDULER_THRESHOLD then { task with type := NVM_TASK }
  else if SCHEDULER_THRESHOLD ≤ task.offset then
    { task with offset := task.offset - SCHEDULER_THRESHOLD, type := SSD_TASK }
  else task

/-- The segment a block belongs to. -/
def segmentOf (offset : Nat) : SegIdx :=
  ⟨offset / STRIPE_SIZE % SEGMENT_NUM, Nat.mod_lt _ (by decide)⟩

/-- `post_task` for `len` blocks from block `offset` on.  Its `queue_idx` is never set, and
never read. -/
def postTask (task : IoTask) (offset len : Nat) : IoTask :=
  { task with
    offset := offset
    len := len
    buf := task.buf + (offset - task.offset) * BLOCK_SIZE
    queueIdx := 0 }

/-- The loop of `mix_post_task_to_buffer`, with the queue each task goes to. -/
def postTaskLoop (task : IoTask) : Nat → Nat → SegIdx → List (SegIdx × IoTask)
  | 0, _, _ => []
  | fuel + 1, offset, idx =>
      let ends := task.offset + task.len
      if offset < ends then
        let len := STRIPE_SIZE - offset % STRIPE_SIZE
        let len := if ends - offset < len then ends - offset else len
        (idx, postTask task offset len) ::
          postTaskLoop task fuel (offset + len)
            ⟨(idx + 1) % SEGMENT_NUM, Nat.mod_lt _ (by decide)⟩
      else []

def mixPostTaskToBuffer (task : IoTask) : List (SegIdx × IoTask) :=
  postTaskLoop task task.len task.offset (segmentOf task.offset)

/-! ## The tasks of a request -/

/-- A task lies in one stripe, and the stripe belongs to segment `idx`. -/
structure InStripe (idx : SegIdx) (task : IoTask) : Prop where
  segment : segmentOf task.offset = idx
  some_block : 0 < task.len
  inside : task.offset % STRIPE_SIZE + task.len ≤ STRIPE_SIZE

theorem InStripe.of_block {idx : SegIdx} {task : IoTask} (stripe : InStripe idx task) {b : Nat}
    (low : task.offset ≤ b) (high : b < task.offset + task.len) : segmentOf b = idx := by
  rw [← stripe.segment]
  have inside := stripe.inside
  have same : b / STRIPE_SIZE = task.offset / STRIPE_SIZE := by
    simp only [STRIPE_SIZE] at inside ⊢
    omega
  simp only [segmentOf, same]

/-- `tasks` cover a request's blocks from block `offset` on, each block once. -/
inductive Splits (task : IoTask) : Nat → List (SegIdx × IoTask) → Prop
  | done : Splits task (task.offset + task.len) []
  | post {offset len : Nat} {rest : List (SegIdx × IoTask)}
      (low : task.offset ≤ offset) (high : offset + len ≤ task.offset + task.len)
      (stripe : InStripe (segmentOf offset) (postTask task offset len))
      (later : Splits task (offset + len) rest) :
      Splits task offset ((segmentOf offset, postTask task offset len) :: rest)

theorem postTaskLoop_splits {task : IoTask} {fuel offset : Nat} {idx : SegIdx}
    (enough : task.offset + task.len ≤ offset + fuel) (low : task.offset ≤ offset)
    (high : offset ≤ task.offset + task.len)
    (here : offset < task.offset + task.len → idx = segmentOf offset) :
    Splits task offset (postTaskLoop task fuel offset idx) := by
  induction fuel generalizing offset idx with
  | zero =>
      have atEnd : offset = task.offset + task.len := by omega
      rw [atEnd]
      exact .done
  | succ fuel ih =>
      unfold postTaskLoop
      by_cases more : offset < task.offset + task.len
      · obtain rfl := here more
        simp only [if_pos more]
        have room : offset % STRIPE_SIZE < STRIPE_SIZE := Nat.mod_lt _ (by decide)
        generalize len_eq : (if task.offset + task.len - offset <
          STRIPE_SIZE - offset % STRIPE_SIZE then task.offset + task.len - offset
          else STRIPE_SIZE - offset % STRIPE_SIZE) = len
        have bounds : 0 < len ∧ len ≤ STRIPE_SIZE - offset % STRIPE_SIZE ∧
            offset + len ≤ task.offset + task.len ∧
            (offset + len < task.offset + task.len → len = STRIPE_SIZE - offset % STRIPE_SIZE) := by
          split at len_eq <;> omega
        obtain ⟨some_block, inside, ends, whole⟩ := bounds
        refine .post low ends ⟨rfl, some_block, ?_⟩ (ih ?_ ?_ ends ?_)
        · change offset % STRIPE_SIZE + len ≤ STRIPE_SIZE
          omega
        · omega
        · omega
        · intro notLast
          have next := whole notLast
          simp only [segmentOf, Fin.mk.injEq, STRIPE_SIZE, SEGMENT_NUM] at next ⊢
          omega
      · have atEnd : offset = task.offset + task.len := by omega
        simp only [if_neg more]
        rw [atEnd]
        exact .done

theorem mixPostTaskToBuffer_splits (task : IoTask) :
    Splits task task.offset (mixPostTaskToBuffer task) :=
  postTaskLoop_splits (Nat.le_refl _) (Nat.le_refl _) (Nat.le_add_right _ _) fun _ => rfl

namespace Splits

variable {task : IoTask} {offset : Nat} {tasks : List (SegIdx × IoTask)}

/-- Each of the tasks is a stripe's part of the request. -/
theorem member (splits : Splits task offset tasks) {x : SegIdx × IoTask} (inside : x ∈ tasks) :
    ∃ b len, x = (segmentOf b, postTask task b len) ∧ offset ≤ b ∧ task.offset ≤ b ∧
      b + len ≤ task.offset + task.len ∧ InStripe x.1 x.2 := by
  induction splits with
  | done => cases inside
  | @post offset len rest low high stripe later ih =>
      rcases List.mem_cons.1 inside with rfl | inside
      · exact ⟨offset, len, rfl, Nat.le_refl _, low, high, stripe⟩
      · obtain ⟨b, n, eq, after, lowb, highb, stripeb⟩ := ih inside
        exact ⟨b, n, eq, by omega, lowb, highb, stripeb⟩

/-- The tasks of one request are in order and do not overlap. -/
theorem pairwise (splits : Splits task offset tasks) :
    tasks.Pairwise fun x y => x.2.offset + x.2.len ≤ y.2.offset := by
  induction splits with
  | done => exact .nil
  | post low high stripe later ih =>
      refine List.pairwise_cons.2 ⟨?_, ih⟩
      intro y inside
      obtain ⟨b, n, rfl, after, -⟩ := later.member inside
      exact after

/-- Every block of the request is in one of the tasks. -/
theorem covers (splits : Splits task offset tasks) {b : Nat} (low : offset ≤ b)
    (high : b < task.offset + task.len) :
    ∃ x ∈ tasks, x.2.offset ≤ b ∧ b < x.2.offset + x.2.len := by
  induction splits with
  | done => omega
  | @post offset len rest _ _ _ later ih =>
      by_cases here : b < offset + len
      · exact ⟨_, List.mem_cons_self, low, here⟩
      · obtain ⟨x, inside, covered⟩ := ih (by omega)
        exact ⟨x, List.mem_cons_of_mem _ inside, covered⟩

end Splits

end Mixdk
