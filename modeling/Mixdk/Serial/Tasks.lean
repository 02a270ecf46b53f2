/-
# Serial.Tasks -- a post of the scheduler as chores

`Storage.serve` executes one post at once: what its nvm_worker does, with the SSD tasks it posts
done in their place.  Piece by piece that is a list of chores (`serve_eq_some`), which keep to the
station's territory and to the memory and the NVM blocks of the post (`Carries`).
-/
import Mixdk.Serial.Chores
import Mixdk.Async.Equivalence

namespace Mixdk

open Transition Lanes

set_option autoImplicit false

/-! ## Execution at once -/

namespace Storage

/-- What `nvm_worker` and `ssd_worker` do for one post of the scheduler, all at once. -/
def serve (d : Storage) : Post → Option Storage
  | .nvm task =>
      if task.queueIdx < SEGMENT_NUM then some ((nvmWorkerNvmTask task).foldl perform d) else none
  | .buffer idx task => (d.m.syncTask (idx, task)).map fun m => { d with m := m }

def setMd (d : Storage) (md : Metadata) : Storage := d.onMachine fun m => m.setMd md

@[simp] theorem setMd_md (d : Storage) (md : Metadata) : (d.setMd md).m.md = md := rfl

@[simp] theorem setMd_setMd (d : Storage) (md md' : Metadata) :
    (d.setMd md).setMd md' = d.setMd md' := rfl

theorem setMd_self (d : Storage) : d.setMd d.m.md = d := rfl

end Storage

/-! ## The chores of a task -/

/-- The SSD's second half is two chores. -/
def Work.chores : Work → List Chore
  | .stage task => [.stage task]
  | .complete task => [.move task, .count task]
  | .action a => [.deed (.act a)]

def Deed.chores : Deed → List Chore
  | .act a => a.works.flatMap Work.chores
  | .nvmRead dst block => [.deed (.nvmRead dst block)]
  | .nvmWrite src block => [.deed (.nvmWrite src block)]

def chores (deeds : List Deed) : List Chore := deeds.flatMap Deed.chores

theorem chores_cons (what : Deed) (deeds : List Deed) :
    chores (what :: deeds) = what.chores ++ chores deeds := rfl

theorem chores_append (deeds deeds' : List Deed) :
    chores (deeds ++ deeds') = chores deeds ++ chores deeds' := List.flatMap_append

theorem chores_actions (actions : List Action) :
    chores (actions.map .act) = (works actions).flatMap Work.chores := by
  induction actions with
  | nil => rfl
  | cons a actions ih =>
      rw [List.map_cons, chores, List.flatMap_cons, works, List.flatMap_cons, List.flatMap_append]
      exact congrArg _ ih

section

variable {P : Nat} {idx : SegIdx} {d : Storage}

/-- The chores of operations on the machine come to the operations. -/
theorem runAll_works (idx : SegIdx) (ws : List Work) (d : Storage) :
    runAll Chore.act d ((ws.flatMap Work.chores).map (Prod.mk idx)) =
      d.onMachine fun m => runAll Work.act m (ws.map (Prod.mk idx)) := by
  induction ws generalizing d with
  | nil => rfl
  | cons w ws ih =>
      rw [List.flatMap_cons, List.map_append, runAll_append, ih, List.map_cons]
      cases w with
      | stage task => rfl
      | complete task =>
          have both := Machine.ssdTaskCount_move d.m idx task
          change Storage.onMachine _ { d with m := (d.m.ssdTaskMove idx task).ssdTaskCount task } = _
          rw [both]
          rfl
      | action a => rfl

theorem runAll_chores_md (xs : List (SegIdx × Chore)) (d : Storage) :
    (runAll Chore.act d xs).m.md = d.m.md := by
  induction xs generalizing d with
  | nil => rfl
  | cons x xs ih => rw [runAll_cons, ih, Chore.act_md]

theorem act_setMd (x : SegIdx × Chore) (d : Storage) (md : Metadata) :
    Chore.act x (d.setMd md) = (Chore.act x d).setMd md := by
  obtain ⟨idx, x⟩ := x
  cases x with
  | stage task => exact congrArg (Storage.mk · d.region) (Work.act_setMd (idx, .stage task) d.m md)
  | move task =>
      simp only [Chore.act, Storage.onMachine, Storage.setMd, Machine.ssdTaskMove]
      split
      · rfl
      · split <;> rfl
  | count task =>
      simp only [Chore.act, Storage.onMachine, Storage.setMd, Machine.ssdTaskCount]
      split
      · rfl
      · split <;> rfl
  | deed what =>
      cases what with
      | act a => exact congrArg (Storage.mk · d.region) (Work.act_setMd (idx, .action a) d.m md)
      | nvmRead | nvmWrite => rfl

theorem runAll_chores_setMd (xs : List (SegIdx × Chore)) (d : Storage) (md : Metadata) :
    runAll Chore.act (d.setMd md) xs = (runAll Chore.act d xs).setMd md :=
  runAll_comm (f := fun d => d.setMd md) (fun x _ => fun d => act_setMd x d md) d

end

/-! ## What a post uses -/

/-- The queue a post goes to: the index of the station, and whether it is the NVM queue. -/
def Post.lane : Post → Nat × Bool
  | .nvm task => (task.queueIdx, true)
  | .buffer idx _ => (idx, false)

def Post.task : Post → IoTask
  | .nvm task | .buffer _ task => task

/-- The blocks of the NVM region that the task uses. -/
def nvmClaim (task : IoTask) : NvmClaim :=
  ⟨decide (opCode task = MIX_WRITE), task.offset, task.len⟩

def Post.nvmClaim : Post → NvmClaim
  | .nvm task => Mixdk.nvmClaim task
  | .buffer _ _ => .none

/-- Posted where `do_schedule` posts it, and the index can hold it. -/
def Post.Suits : Post → Prop
  | .nvm task => task.type = NVM_TASK
  | .buffer idx task => task.type = SSD_TASK ∧ InRange task ∧ InStripe idx task

/-- Neither task fills memory of the other, nor writes NVM blocks of another station's task. -/
def Post.Apart (p q : Post) : Prop :=
  (taskClaim p.task).Apart (taskClaim q.task) ∧
    (p.lane.1 ≠ q.lane.1 → p.nvmClaim.Apart q.nvmClaim)

theorem Post.Apart.symm {p q : Post} (apart : p.Apart q) : q.Apart p :=
  ⟨MemClaim.Apart.symm apart.1, fun other => (apart.2 (Ne.symm other)).symm⟩

/-- `y` comes later in its station, and may overtake `x`: it is a deed, and `x` is not. -/
def Chore.Before (x y : Chore) : Prop :=
  (∃ d, y = .deed d) → (∀ d, x ≠ .deed d) → x.claim.Apart y.claim

/-- Chores that keep to the segment, and to the memory and the NVM blocks of their post. -/
structure Carries (P : Nat) (idx : SegIdx) (p : Post) (xs : List Chore) : Prop where
  inSegment : ∀ x ∈ xs, x.InSegment P idx
  within : ∀ x ∈ xs, x.claim.Within (taskClaim p.task)
  nvm : ∀ x ∈ xs, x.nvm.Within p.nvmClaim
  order : xs.Pairwise Chore.Before

section

variable {P : Nat} {idx : SegIdx} {d e : Storage} {task : IoTask}

/-! ## The chores of an SSD task -/

theorem Work.of_mem_chores {w : Work} {x : Chore} (member : x ∈ w.chores) :
    (∀ P idx, w.InSegment P idx → x.InSegment P idx) ∧ (x.claim = w.claim ∨ x.claim.len = 0) ∧
      x.nvm = .none ∧ ((∃ d, x = .deed d) ↔ ∃ a, w = .action a) := by
  cases w with
  | stage task =>
      obtain rfl := List.mem_singleton.1 member
      exact ⟨fun _ _ => id, .inl rfl, rfl, ⟨nofun, nofun⟩⟩
  | complete task =>
      rcases List.mem_cons.1 member with rfl | member
      · exact ⟨fun _ _ => id, .inl rfl, rfl, ⟨nofun, nofun⟩⟩
      · obtain rfl := List.mem_singleton.1 member
        exact ⟨fun _ _ _ => trivial, .inr rfl, rfl, ⟨nofun, nofun⟩⟩
  | action a =>
      obtain rfl := List.mem_singleton.1 member
      exact ⟨fun _ _ => id, .inl rfl, rfl, ⟨fun _ => ⟨a, rfl⟩, fun _ => ⟨_, rfl⟩⟩⟩

theorem MemClaim.Within.of_part {c c' d : MemClaim} (part : c' = c ∨ c'.len = 0)
    (within : c.Within d) : c'.Within d := by
  rcases part with rfl | empty
  · exact within
  · exact .inl empty

theorem Prepared.carries {actions : List Action} (prepared : Prepared P idx task actions) :
    Carries P idx (.buffer idx task) (chores (actions.map .act)) := by
  rw [chores_actions]
  have origin : ∀ x ∈ (works actions).flatMap Work.chores, ∃ w ∈ works actions, x ∈ w.chores :=
    fun x member => List.mem_flatMap.1 member
  refine ⟨fun x member => ?_, fun x member => ?_, fun x member => ?_, ?_⟩
  · obtain ⟨w, there, inside⟩ := origin x member
    exact (Work.of_mem_chores inside).1 P idx (prepared.inSegment w there)
  · obtain ⟨w, there, inside⟩ := origin x member
    exact .of_part (Work.of_mem_chores inside).2.1 (prepared.within w there)
  · obtain ⟨w, there, inside⟩ := origin x member
    rw [(Work.of_mem_chores inside).2.2.1]
    exact .inl rfl
  · refine List.pairwise_flatMap.2 ⟨fun w _ => ?_, prepared.apart.imp ?_⟩
    · cases w with
      | stage | action => exact List.pairwise_singleton ..
      | complete task => exact List.pairwise_pair.2 nofun
    · intro w w' before x here y there deed _
      obtain ⟨-, part, -, -⟩ := Work.of_mem_chores here
      obtain ⟨-, part', -, action⟩ := Work.of_mem_chores there
      have apart := before (action.1 deed)
      have left := (MemClaim.Within.of_part part (.refl _)).apart apart
      exact ((MemClaim.Within.of_part part' (.refl _)).apart left.symm).symm

/-! ## The chores of an NVM task -/

/-- A deed of an NVM task, and what it claims. -/
theorem nvmTask_deed {what : Deed} (member : what ∈ nvmWorkerNvmTask task) :
    what.chores = [.deed what] ∧ what.claim.Within (taskClaim task) ∧
      what.nvm.Within (nvmClaim task) ∧ ∀ P idx, what.InSegment P idx := by
  have inRange : ∀ {i}, i < task.len →
      task.buf + i * BLOCK_SIZE + 1 * BLOCK_SIZE ≤ task.buf + task.len * BLOCK_SIZE := by
    intro i below
    rw [Nat.add_assoc, ← Nat.add_mul]
    exact block_le (Nat.succ_le_of_lt below)
  unfold nvmWorkerNvmTask at member
  split at member
  next read =>
    rcases List.mem_append.1 member with copied | counted
    · obtain ⟨i, below, rfl⟩ := List.mem_map.1 copied
      have below := List.mem_range.1 below
      exact ⟨rfl, .inr ⟨fun _ => decide_eq_true read, Nat.le_add_right _ _, inRange below⟩,
        .inr ⟨nofun, Nat.le_add_right _ _, Nat.add_le_add_left (Nat.succ_le_of_lt below) _⟩,
        fun _ _ => trivial⟩
    · obtain rfl := List.mem_singleton.1 counted
      exact ⟨rfl, .inl rfl, .inl rfl, fun _ _ => trivial⟩
  next =>
    split at member
    next write =>
      rcases List.mem_append.1 member with copied | counted
      · obtain ⟨i, below, rfl⟩ := List.mem_map.1 copied
        have below := List.mem_range.1 below
        exact ⟨rfl, .inr ⟨nofun, Nat.le_add_right _ _, inRange below⟩,
          .inr ⟨fun _ => decide_eq_true write, Nat.le_add_right _ _,
            Nat.add_le_add_left (Nat.succ_le_of_lt below) _⟩, fun _ _ => trivial⟩
      · obtain rfl := List.mem_singleton.1 counted
        exact ⟨rfl, .inl rfl, .inl rfl, fun _ _ => trivial⟩
    next => cases member

theorem chores_deeds {deeds : List Deed} (single : ∀ what ∈ deeds, what.chores = [.deed what]) :
    chores deeds = deeds.map .deed := by
  induction deeds with
  | nil => rfl
  | cons what deeds ih =>
      rw [chores, List.flatMap_cons, single what List.mem_cons_self, List.map_cons,
        ← ih fun other member => single other (List.mem_cons_of_mem what member)]
      rfl

theorem nvmTask_chores (task : IoTask) :
    chores (nvmWorkerNvmTask task) = (nvmWorkerNvmTask task).map .deed :=
  chores_deeds fun _ member => (nvmTask_deed member).1

theorem runAll_deeds (idx : SegIdx) (deeds : List Deed) (d : Storage) :
    runAll Chore.act d ((deeds.map Chore.deed).map (Prod.mk idx)) = deeds.foldl Storage.perform d := by
  rw [List.map_map, runAll, List.foldl_map]
  rfl

theorem nvmTask_carries (P : Nat) (idx : SegIdx) (task : IoTask) :
    Carries P idx (.nvm task) (chores (nvmWorkerNvmTask task)) := by
  rw [nvmTask_chores]
  refine ⟨fun x member => ?_, fun x member => ?_, fun x member => ?_, ?_⟩
  · obtain ⟨what, there, rfl⟩ := List.mem_map.1 member
    exact (nvmTask_deed there).2.2.2 P idx
  · obtain ⟨what, there, rfl⟩ := List.mem_map.1 member
    exact (nvmTask_deed there).2.1
  · obtain ⟨what, there, rfl⟩ := List.mem_map.1 member
    exact (nvmTask_deed there).2.2.1
  · refine List.pairwise_map.2 (List.pairwise_of_forall fun what _ _ notDeed => ?_)
    exact absurd rfl (notDeed what)

/-! ## A task begun -/

/-- The nvm_worker of station `idx` begins the post: the index it leaves, and its deeds. -/
inductive Begins (md : Metadata) : Post → SegIdx → Metadata → List Deed → Prop
  | nvm {task : IoTask} (inside : task.queueIdx < SEGMENT_NUM) :
      Begins md (.nvm task) ⟨task.queueIdx, inside⟩ md (nvmWorkerNvmTask task)
  | buffer {idx : SegIdx} {task : IoTask} {md' : Metadata} {actions : List Action} {ret : Nat}
      (done : nvmWorkerSsdTask md task idx = .done md' actions ret) :
      Begins md (.buffer idx task) idx md' (actions.map .act)

theorem serve_eq_some {p : Post} : d.serve p = some e ↔ ∃ idx md deeds,
    Begins d.m.md p idx md deeds ∧
      e = runAll Chore.act (d.setMd md) ((chores deeds).map (Prod.mk idx)) := by
  cases p with
  | nvm task =>
      by_cases inside : task.queueIdx < SEGMENT_NUM
      · rw [Storage.serve, if_pos inside, Option.some.injEq]
        constructor
        · rintro rfl
          refine ⟨_, _, _, .nvm inside, ?_⟩
          rw [nvmTask_chores, runAll_deeds, Storage.setMd_self]
        · rintro ⟨_, _, _, begins, rfl⟩
          cases begins
          rw [nvmTask_chores, runAll_deeds, Storage.setMd_self]
      · rw [Storage.serve, if_neg inside]
        refine ⟨nofun, ?_⟩
        rintro ⟨_, _, _, begins, -⟩
        cases begins
        contradiction
  | buffer idx task =>
      rw [Storage.serve, Option.map_eq_some_iff]
      constructor
      · rintro ⟨m, ran, rfl⟩
        obtain ⟨md, actions, ret, done, rfl⟩ := syncTask_eq_some.1 ran
        refine ⟨idx, md, _, .buffer done, ?_⟩
        rw [chores_actions, runAll_works]
        rfl
      · rintro ⟨_, _, _, begins, rfl⟩
        cases begins with
        | buffer done =>
            refine ⟨_, syncTask_eq_some.2 ⟨_, _, _, done, rfl⟩, ?_⟩
            rw [chores_actions, runAll_works]
            rfl

variable {p : Post} {md md' : Metadata} {deeds : List Deed}

theorem Begins.lane (begins : Begins md p idx md' deeds) : p.lane.1 = idx := by
  cases begins <;> rfl

theorem Begins.carries (begins : Begins md p idx md' deeds) (all : AllIndexed md)
    (suits : p.Suits) : Carries md.perBlockNum idx p (chores deeds) := by
  cases begins with
  | nvm inside => exact nvmTask_carries _ _ _
  | buffer done => exact (nvmWorkerSsdTask_prepared all suits.2.1 suits.2.2 done).carries

theorem Begins.allIndexed (begins : Begins md p idx md' deeds) (all : AllIndexed md)
    (suits : p.Suits) : AllIndexed md' ∧ md'.perBlockNum = md.perBlockNum := by
  cases begins with
  | nvm inside => exact ⟨all, rfl⟩
  | buffer done => exact nvmWorkerSsdTask_allIndexed all suits.2.1 done

end

end Mixdk
