/-
# Serial.Swap -- tasks of different queues in either order

Each queue of a station has its tasks served in order.  Tasks of different queues can be swapped
(`serve_swap`): those of different stations touch different segments, and an NVM task and an SSD
task of one station only meet in the caller's memory.  What the scheduler posts for separate
requests is apart in this way (`jobs_apart`).
-/
import Mixdk.Serial.Settle
import Mixdk.Pipeline.Draining
import Mixdk.Pipeline.NvmOrder

namespace Mixdk

open Transition Lanes

set_option autoImplicit false

/-! ## Tasks of different queues -/

section

variable {P : Nat} {d e : Storage} {p q : Post} {i j : SegIdx} {md : Metadata}
  {deeds deeds' : List Deed}

/-- Posts to different queues write no NVM blocks of each other. -/
theorem Post.Apart.nvm (apart : p.Apart q) (other : p.lane ≠ q.lane) :
    p.nvmClaim.Apart q.nvmClaim := by
  by_cases same : p.lane.1 = q.lane.1
  · cases p with
    | buffer => exact NvmClaim.apart_none.symm
    | nvm t =>
        cases q with
        | buffer => exact NvmClaim.apart_none
        | nvm u => exact absurd (Prod.ext same rfl) other
  · exact apart.2 same

theorem nvmTask_territory {task : IoTask} {x : Chore}
    (member : x ∈ chores (nvmWorkerNvmTask task)) : x.territory P i = ∅ := by
  rw [nvmTask_chores] at member
  obtain ⟨what, there, rfl⟩ := List.mem_map.1 member
  unfold nvmWorkerNvmTask at there
  split at there
  next =>
    rcases List.mem_append.1 there with copied | counted
    · obtain ⟨_, -, rfl⟩ := List.mem_map.1 copied
      rfl
    · obtain rfl := List.mem_singleton.1 counted
      rfl
  next =>
    split at there
    next =>
      rcases List.mem_append.1 there with copied | counted
      · obtain ⟨_, -, rfl⟩ := List.mem_map.1 copied
        rfl
      · obtain rfl := List.mem_singleton.1 counted
        rfl
    next => cases there

/-- The chores of an NVM task commute with those of a task in another queue. -/
theorem nvmTask_commute {task : IoTask} {xs : List Chore}
    (carries : Carries P j q xs) (apart : (Post.nvm task).Apart q)
    (other : (Post.nvm task).lane ≠ q.lane) :
    ∀ a ∈ (chores (nvmWorkerNvmTask task)).map (Prod.mk i), ∀ b ∈ xs.map (Prod.mk j),
      Function.Commute (Chore.act a) (Chore.act b) := by
  intro a here b there
  obtain ⟨x, mine, rfl⟩ := List.mem_map.1 here
  obtain ⟨y, theirs, rfl⟩ := List.mem_map.1 there
  have nvm := nvmTask_carries P i task
  refine Chore.commute_of_territory (nvm.inSegment x mine) (carries.inSegment y theirs) ?_ ⟨?_, ?_⟩
  · rw [nvmTask_territory mine]
    exact fun _ nowhere => nowhere.elim
  · have left := (nvm.within x mine).apart apart.1
    exact ((carries.within y theirs).apart left.symm).symm
  · have left := (nvm.nvm x mine).apart (apart.nvm other)
    exact ((carries.nvm y theirs).apart left.symm).symm

/-- An NVM task does not look at the index. -/
theorem Begins.nvm_any {task : IoTask} {md' : Metadata} (begins : Begins md (.nvm task) i md' deeds)
    (any : Metadata) : md' = md ∧ deeds = nvmWorkerNvmTask task ∧
      Begins any (.nvm task) i any deeds := by
  cases begins with
  | nvm inside => exact ⟨rfl, rfl, .nvm inside⟩

theorem serve_running (running : Running P d.m) (suits : p.Suits) (served : d.serve p = some e) :
    Running P e.m := by
  obtain ⟨i, md, deeds, begins, rfl⟩ := serve_eq_some.1 served
  obtain ⟨all, size⟩ := begins.allIndexed running.all suits
  exact ⟨by rw [runAll_chores_md]; exact all,
    by rw [runAll_chores_md]; exact size.trans running.perBlockNum⟩

/-- Tasks for the index, of different segments. -/
theorem serve_swap_buffer {t u : IoTask} (running : Running P d.m)
    (suits : (Post.buffer i t).Suits) (suits' : (Post.buffer j u).Suits)
    (apart : (Post.buffer j u).Apart (.buffer i t)) (other : i ≠ j)
    (ran : exec Storage.serve d [.buffer i t, .buffer j u] = some e) :
    exec Storage.serve d [.buffer j u, .buffer i t] = some e := by
  obtain ⟨d₁, first, rest⟩ := exec_cons_eq_some.1 ran
  obtain ⟨d₂, second, last⟩ := exec_cons_eq_some.1 rest
  obtain rfl := Option.some.inj last
  obtain ⟨m₁, ran₁, rfl⟩ := Option.map_eq_some_iff.1 first
  obtain ⟨m₂, ran₂, rfl⟩ := Option.map_eq_some_iff.1 second
  have swapped := syncTask_swap running (x := (i, t)) (y := (j, u)) suits.2 suits'.2 apart.1 other
    (exec_cons_eq_some.2 ⟨m₁, ran₁, exec_cons_eq_some.2 ⟨m₂, ran₂, rfl⟩⟩)
  obtain ⟨m₃, ran₃, rest⟩ := exec_cons_eq_some.1 swapped
  obtain ⟨m₄, ran₄, last⟩ := exec_cons_eq_some.1 rest
  obtain rfl := Option.some.inj last
  refine exec_cons_eq_some.2 ⟨{ d with m := m₃ }, ?_, exec_cons_eq_some.2 ⟨_, ?_, rfl⟩⟩
  · exact Option.map_eq_some_iff.2 ⟨m₃, ran₃, rfl⟩
  · exact Option.map_eq_some_iff.2 ⟨m₄, ran₄, rfl⟩

/-- An NVM task and a task of another queue, whichever is first. -/
theorem serve_swap_nvm {t : IoTask} (running : Running P d.m) (suits : q.Suits)
    (apart : (Post.nvm t).Apart q) (other : (Post.nvm t).lane ≠ q.lane) :
    exec Storage.serve d [.nvm t, q] = some e ↔ exec Storage.serve d [q, .nvm t] = some e := by
  constructor
  · intro ran
    obtain ⟨d₁, first, rest⟩ := exec_cons_eq_some.1 ran
    obtain ⟨d₂, second, last⟩ := exec_cons_eq_some.1 rest
    obtain rfl := Option.some.inj last
    obtain ⟨i, md, deeds, begins, rfl⟩ := serve_eq_some.1 first
    obtain ⟨j, md', deeds', begins', rfl⟩ := serve_eq_some.1 second
    obtain ⟨rfl, rfl, again⟩ := begins.nvm_any md'
    rw [runAll_chores_md, Storage.setMd_md] at begins'
    have carries := begins'.carries running.all suits
    rw [running.perBlockNum] at carries
    have swap := runAll_swap (nvmTask_commute (i := i) carries apart other) (d.setMd md')
    rw [runAll_append, runAll_append] at swap
    refine exec_cons_eq_some.2 ⟨_, serve_eq_some.2 ⟨j, md', deeds', begins', rfl⟩,
      exec_cons_eq_some.2 ⟨_, serve_eq_some.2 ⟨i, md', nvmWorkerNvmTask t, ?_, rfl⟩, ?_⟩⟩
    · rw [runAll_chores_md, Storage.setMd_md]
      exact again
    · rw [← runAll_chores_setMd, ← runAll_chores_setMd, Storage.setMd_setMd, Storage.setMd_setMd]
      exact congrArg some swap.symm
  · intro ran
    obtain ⟨d₁, first, rest⟩ := exec_cons_eq_some.1 ran
    obtain ⟨d₂, second, last⟩ := exec_cons_eq_some.1 rest
    obtain rfl := Option.some.inj last
    obtain ⟨j, md', deeds', begins', rfl⟩ := serve_eq_some.1 first
    obtain ⟨i, md, deeds, begins, rfl⟩ := serve_eq_some.1 second
    obtain ⟨rfl, rfl, again⟩ := begins.nvm_any d.m.md
    have carries := begins'.carries running.all suits
    rw [running.perBlockNum] at carries
    have swap := runAll_swap (nvmTask_commute (i := i) carries apart other) (d.setMd md')
    rw [runAll_append, runAll_append] at swap
    refine exec_cons_eq_some.2 ⟨_, serve_eq_some.2 ⟨i, d.m.md, nvmWorkerNvmTask t, again, rfl⟩,
      exec_cons_eq_some.2 ⟨_, serve_eq_some.2 ⟨j, md', deeds', ?_, rfl⟩, ?_⟩⟩
    · rw [runAll_chores_md, Storage.setMd_md]
      exact begins'
    · rw [← runAll_chores_setMd, Storage.setMd_setMd, swap]
      rfl

/-- **Tasks of different queues can be served in either order.** -/
theorem serve_swap (running : Running P d.m) (suits : p.Suits) (suits' : q.Suits)
    (apart : q.Apart p) (other : p.lane ≠ q.lane)
    (ran : exec Storage.serve d [p, q] = some e) : exec Storage.serve d [q, p] = some e := by
  cases p with
  | nvm t => exact (serve_swap_nvm running suits' apart.symm other).1 ran
  | buffer i t =>
      cases q with
      | nvm u => exact (serve_swap_nvm running suits apart other.symm).2 ran
      | buffer j u =>
          refine serve_swap_buffer running suits suits' apart (fun same => other ?_) ran
          exact congrArg (fun k : SegIdx => ((k : Nat), false)) same

/-! ## Conditions on the index -/

/-- A condition on a post and the index that only looks at the post's own segment. -/
def Post.Local (Safe : Metadata → Post → Prop) : Prop :=
  ∀ ⦃md md' : Metadata⦄ ⦃p : Post⦄, md'.perBlockNum = md.perBlockNum →
    (∀ idx : SegIdx, p.lane = ((idx : Nat), false) → md'.segments idx = md.segments idx) →
    Safe md p → Safe md' p

/-- A post changes its own segment of the index alone. -/
theorem serve_index (served : d.serve p = some e) :
    e.m.md.perBlockNum = d.m.md.perBlockNum ∧
      ∀ idx : SegIdx, p.lane ≠ ((idx : Nat), false) →
        e.m.md.segments idx = d.m.md.segments idx := by
  obtain ⟨i, md, deeds, begins, rfl⟩ := serve_eq_some.1 served
  rw [runAll_chores_md, Storage.setMd_md]
  cases begins with
  | nvm inside => exact ⟨rfl, fun _ _ => rfl⟩
  | buffer done =>
      have own := nvmWorkerSsdTask_done done
      rw [own]
      refine ⟨rfl, fun idx other => Metadata.setSegment_of_ne _ _ ?_⟩
      rintro rfl
      exact other rfl

/-- The same, when each post has to meet a condition on its segment. -/
theorem run_swap {Safe : Metadata → Post → Prop} (localized : Post.Local Safe)
    (running : Running P d.m) (suits : p.Suits) (suits' : q.Suits) (apart : q.Apart p)
    (other : p.lane ≠ q.lane)
    (ran : Run Storage.serve (fun d p => Safe d.m.md p) d [p, q] e) :
    Run Storage.serve (fun d p => Safe d.m.md p) d [q, p] e := by
  have swapped := serve_swap running suits suits' apart other ran.exec
  cases ran with
  | @cons _ d₁ _ _ _ safe first rest =>
      cases rest with
      | cons safe' second _ =>
          obtain ⟨d₂, first', rest'⟩ := exec_cons_eq_some.1 swapped
          obtain ⟨d₃, second', last⟩ := exec_cons_eq_some.1 rest'
          obtain rfl := Option.some.inj last
          obtain ⟨size, elsewhere⟩ := serve_index first
          obtain ⟨size', elsewhere'⟩ := serve_index first'
          refine .cons ?_ first' (.cons ?_ second' (.nil _))
          · refine localized size.symm (fun idx mine => (elsewhere idx ?_).symm) safe'
            exact fun same => other (same.trans mine.symm)
          · refine localized size' (fun idx mine => elsewhere' idx ?_) safe
            exact fun same => other (mine.trans same.symm)

end

/-! ## Requests -/

/-- Wholly in one region of the device. -/
def IoTask.Regional (task : IoTask) : Prop :=
  task.offset + task.len < SCHEDULER_THRESHOLD ∨
    SCHEDULER_THRESHOLD ≤ task.offset ∧ task.offset + task.len ≤ DEVICE_BLOCK_NUM

/-- Neither request fills memory of the other. -/
def IoTask.MemSeparate (t u : IoTask) : Prop := (taskClaim t).Apart (taskClaim u)

/-- If the requests come by different submit queues and both go to the NVM region, neither writes
NVM blocks of the other: nothing orders the nvm_workers of two submit queues. -/
def IoTask.NvmSeparate (t u : IoTask) : Prop :=
  t.queueIdx ≠ u.queueIdx → t.offset + t.len < SCHEDULER_THRESHOLD →
    u.offset + u.len < SCHEDULER_THRESHOLD → (nvmClaim t).Apart (nvmClaim u)

instance (t u : IoTask) : Decidable (t.MemSeparate u) := by
  unfold IoTask.MemSeparate
  infer_instance

instance (t u : IoTask) : Decidable (t.NvmSeparate u) := by
  unfold IoTask.NvmSeparate
  infer_instance

/-- Neither fills memory of the other, nor writes its NVM blocks. -/
def IoTask.Separate (t u : IoTask) : Prop := t.MemSeparate u ∧ t.NvmSeparate u

theorem IoTask.Separate.symm {t u : IoTask} (separate : t.Separate u) : u.Separate t :=
  ⟨MemClaim.Apart.symm separate.1, fun other here there =>
    (separate.2 (Ne.symm other) there here).symm⟩

/-- A part of a request, where the scheduler posts it. -/
structure Post.Of (task : IoTask) (p : Post) : Prop where
  suits : p.Suits
  within : (taskClaim p.task).Within (taskClaim task)
  nvm : p.nvmClaim = .none ∨ p.nvmClaim = Mixdk.nvmClaim task ∧ p.lane.1 = task.queueIdx ∧
    task.offset + task.len < SCHEDULER_THRESHOLD

section

variable {task t u : IoTask} {p q : Post}

/-- `handle_task` does not touch the buffer. -/
theorem handleTask_claim (task : IoTask) : taskClaim (handleTask task) = taskClaim task := by
  unfold handleTask taskClaim opCode
  split
  next => rfl
  next => split <;> rfl

theorem ssdPosts_of (type : task.type = SSD_TASK) (inSsd : InSsd task) :
    ∀ x ∈ mixPostTaskToBuffer task, (Post.buffer x.1 x.2).Suits ∧
      (taskClaim x.2).Within (taskClaim task) := by
  intro x there
  have fits := subtasks_fit (List.forall_mem_singleton.2 inSsd) x
    (List.mem_flatMap.2 ⟨task, List.mem_singleton_self task, there⟩)
  obtain ⟨b, len, rfl, -, low, high, -⟩ := (mixPostTaskToBuffer_splits _).member there
  exact ⟨⟨type, fits⟩, postTask_within rfl low high⟩

theorem doSchedule_of (regional : task.Regional) :
    ∀ p ∈ doSchedule (handleTask task), p.Of task := by
  intro p member
  rcases regional with below | ⟨above, inside⟩
  · rw [handleTask_nvm below, doSchedule_nvm rfl] at member
    obtain rfl := List.mem_singleton.1 member
    exact ⟨rfl, .refl _, .inr ⟨rfl, rfl, below⟩⟩
  · have type : (handleTask task).type = SSD_TASK := by rw [handleTask_ssd above]
    have inSsd : InSsd (handleTask task) := by
      unfold InSsd
      rw [handleTask_ssd above]
      unfold DEVICE_BLOCK_NUM at inside
      change task.offset - SCHEDULER_THRESHOLD + task.len ≤ SSD_BLOCK_NUM
      omega
    rw [doSchedule_ssd type] at member
    obtain ⟨x, there, rfl⟩ := List.mem_map.1 member
    obtain ⟨suits, within⟩ := ssdPosts_of type inSsd x there
    exact ⟨suits, handleTask_claim task ▸ within, .inl rfl⟩

/-- The parts of separate requests are apart. -/
theorem Post.Of.apart (here : p.Of t) (there : q.Of u) (separate : t.Separate u) : p.Apart q := by
  constructor
  · have left := here.within.apart separate.1
    exact (there.within.apart left.symm).symm
  · intro other
    rcases here.nvm with none | ⟨claim, lane, below⟩
    · rw [none]
      exact NvmClaim.apart_none.symm
    · rcases there.nvm with none' | ⟨claim', lane', below'⟩
      · rw [none']
        exact NvmClaim.apart_none
      · rw [claim, claim']
        refine separate.2 (fun same => other ?_) below below'
        rw [lane, lane', same]

/-- The parts of one request are apart. -/
theorem doSchedule_apart (regional : task.Regional) :
    (doSchedule (handleTask task)).Pairwise Post.Apart := by
  rcases regional with below | ⟨above, -⟩
  · rw [handleTask_nvm below, doSchedule_nvm rfl]
    exact List.pairwise_singleton ..
  · rw [handleTask_ssd above, doSchedule_ssd rfl]
    exact List.pairwise_map.2 ((request_apart _).imp fun apart =>
      ⟨apart, fun _ => NvmClaim.apart_none⟩)

theorem jobs_suit {tasks : List IoTask} (regional : ∀ task ∈ tasks, task.Regional) :
    ∀ p ∈ Pipeline.jobs tasks, p.Suits := by
  intro p member
  obtain ⟨task, there, inside⟩ := List.mem_flatMap.1 member
  exact (doSchedule_of (regional task there) p inside).suits

theorem jobs_apart {tasks : List IoTask} (regional : ∀ task ∈ tasks, task.Regional)
    (separate : tasks.Pairwise IoTask.Separate) : (Pipeline.jobs tasks).Pairwise Post.Apart := by
  refine List.pairwise_flatMap.2 ⟨fun task there => doSchedule_apart (regional task there), ?_⟩
  refine separate.imp_of_mem fun here there separate p inside q inside' => ?_
  exact (doSchedule_of (regional _ here) p inside).apart
    (doSchedule_of (regional _ there) q inside') separate

end

end Mixdk
