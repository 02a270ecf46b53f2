/-
# Pipeline.Slots -- SSD tasks fit their worker's staging slot

`mix_post_task_to_buffer` cuts a request at the stripes of four blocks, `redirect_read`
cuts such a part into runs, and `redirect_write` passes it on.  So whatever comes to
`ssd_queue[w]` lies in one stripe, and the stripe is one of segment `w` (`Fits`).  Then the
slot `mix_ssd_read` computes from the offset is `w` as well, the slot of `mix_ssd_write`.

Nothing is asked of a request but that it lies inside the device.  One that crosses from
the NVM region into the SSD's keeps whatever `type` its caller's memory held.
-/
import Mixdk.Pipeline.Actions
import Mixdk.Pipeline.Steps
import Mathlib.Data.Set.Basic

namespace Mixdk

open Transition

set_option autoImplicit false

/-! ## Sizes -/

/-- Blocks of the device: the NVM region, then the SSD. -/
def DEVICE_BLOCK_NUM : Nat := SCHEDULER_THRESHOLD + SSD_BLOCK_NUM

/-- The request lies inside the device. -/
def Request.Inside (request : Request) : Prop :=
  ∀ i, (request.task i).offset + (request.task i).len ≤ DEVICE_BLOCK_NUM

theorem inRange_of_device {task : IoTask} (some_block : 0 < task.len)
    (inside : task.offset + task.len ≤ DEVICE_BLOCK_NUM) : InRange task := by
  refine ⟨some_block, Nat.le_trans inside ?_⟩
  decide

theorem handleTask_inside {task : IoTask} (inside : task.offset + task.len ≤ DEVICE_BLOCK_NUM) :
    (handleTask task).offset + (handleTask task).len ≤ DEVICE_BLOCK_NUM := by
  unfold handleTask
  split
  · exact inside
  · split
    · exact Nat.le_trans (Nat.add_le_add_right (Nat.sub_le _ _) _) inside
    · exact inside

/-! ## What is posted -/

/-- A task of a buffer queue: part of one stripe of its segment. -/
structure Part (idx : SegIdx) (task : IoTask) : Prop where
  type : task.type = SSD_TASK
  inRange : InRange task
  stripe : InStripe idx task

theorem mixPostTaskToBuffer_parts {task : IoTask} (type : task.type = SSD_TASK)
    (inside : task.offset + task.len ≤ DEVICE_BLOCK_NUM) {part : SegIdx × IoTask}
    (member : part ∈ mixPostTaskToBuffer task) : Part part.1 part.2 := by
  obtain ⟨b, len, rfl, -, -, high, stripe⟩ := (mixPostTaskToBuffer_splits task).member member
  exact ⟨type, inRange_of_device stripe.some_block (Nat.le_trans high inside), stripe⟩

theorem Delivers.posts {md : Metadata} {task : IoTask} {idx : SegIdx} {n i : Nat}
    {actions : List Action} (stripe : InStripe idx task) (upto : n ≤ task.len)
    (delivers : Delivers md task idx n i actions) {posted : IoTask}
    (member : .postTaskToSsd posted ∈ actions) : InStripe idx posted := by
  induction delivers with
  | done => cases member
  | buffer _ _ _ ih =>
      rcases List.mem_cons.1 member with same | later
      · cases same
      · exact ih later
  | ssd some_block inside _ _ ih =>
      rcases List.mem_cons.1 member with same | later
      · cases same
        exact readPart_inStripe stripe some_block (Nat.le_trans inside upto)
      · exact ih later

/-- **What an nvm_worker posts for a part lies in the same stripe.** -/
theorem SsdTaskActions.posts {md : Metadata} {task : IoTask} {idx : SegIdx} {actions : List Action}
    (stripe : InStripe idx task) (does : SsdTaskActions md task idx actions) {posted : IoTask}
    (member : .postTaskToSsd posted ∈ actions) : InStripe idx posted := by
  cases does with
  | read _ delivers =>
      rcases List.mem_append.1 member with read | last
      · exact delivers.posts stripe (Nat.le_refl _) read
      · simp at last
  | small => simp at member
  | large =>
      have same : posted = task := by simpa using member
      exact same ▸ stripe
  | nothing => cases member

/-! ## The invariant -/

/-- The task the ssd_worker has in hand. -/
def SsdPhase.tasks : SsdPhase → List IoTask
  | .poll => []
  | .execute task | .staged task | .moved task => [task]

/-- The tasks of the SSD queue, and the one the ssd_worker has in hand. -/
def Station.ssdTasks (station : Station) : List IoTask := station.ssdQueue ++ station.ssd.tasks

/-- The SSD tasks the nvm_worker has still to post. -/
def NvmPc.Posts (posted : IoTask) : NvmPc → Prop
  | .doing _ deeds => .act (.postTaskToSsd posted) ∈ deeds
  | .poll | .full _ | .migrating _ => False

/-- The write for which the nvm_worker migrates its segment. -/
def NvmPc.Migrates (task : IoTask) (pc : NvmPc) : Prop := pc = .full task ∨ pc = .migrating task

/-- What an nvm_worker of index `idx` may have in hand. -/
structure NvmPc.Fits (idx : SegIdx) (pc : NvmPc) : Prop where
  posts : ∀ posted, pc.Posts posted → InStripe idx posted
  migrates : ∀ task, pc.Migrates task → opCode task = MIX_WRITE ∧ task.len = 1

structure Station.Fits (idx : SegIdx) (station : Station) : Prop where
  buffer : ∀ task ∈ station.bufferQueue, Part idx task
  nvmQueue : ∀ task ∈ station.nvmQueue, task.type = NVM_TASK
  nvm : station.nvm.Fits idx
  ssd : ∀ task ∈ station.ssdTasks, InStripe idx task

def Post.Fits : Post → Prop
  | .nvm task => task.type = NVM_TASK
  | .buffer idx task => Part idx task

structure Pipeline.Fits (s : Pipeline) : Prop where
  toPost : ∀ i, ∀ request ∈ s.toPost i, request.Inside
  submitted : ∀ i, ∀ task ∈ s.submitQueue i, task.offset + task.len ≤ DEVICE_BLOCK_NUM
  hand : ∀ post ∈ s.hand, post.Fits
  station : ∀ idx, (s.station idx).Fits idx

theorem doSchedule_fits {task : IoTask} (inside : task.offset + task.len ≤ DEVICE_BLOCK_NUM) :
    ∀ post ∈ doSchedule task, post.Fits := by
  intro post member
  unfold doSchedule at member
  split at member
  next type =>
    rw [List.mem_singleton.1 member]
    exact type
  next =>
    split at member
    next type =>
      obtain ⟨part, there, rfl⟩ := List.mem_map.1 member
      exact mixPostTaskToBuffer_parts type inside there
    next => cases member

theorem nvmWorkerNvmTask_posts {task posted : IoTask} :
    .act (.postTaskToSsd posted) ∉ nvmWorkerNvmTask task := by
  unfold nvmWorkerNvmTask
  split
  · simp
  · split <;> simp

namespace Pipeline.Fits

variable {submitQueueNum : Nat} {s t : Pipeline} {idx : SegIdx}

theorem stations (fits : s.Fits) {station : Station} (here : station.Fits idx) (j : SegIdx) :
    (Function.update s.station idx station j).Fits j :=
  (Function.forall_update_iff s.station fun j st => st.Fits j).2
    ⟨here, fun j _ => fits.station j⟩ j

/-- The task taken is of the queue it was taken from. -/
theorem takes (fits : s.Fits) {task : IoTask} {station : Station}
    (takes : Takes (s.station idx) task station) :
    (task.type = NVM_TASK ∨ Part idx task) ∧
      ∀ {pc : NvmPc}, pc.Fits idx → ({ station with nvm := pc } : Station).Fits idx := by
  have here := fits.station idx
  cases takes with
  | nvm odd queue =>
      obtain ⟨type, rest⟩ := List.forall_mem_cons.1 (queue ▸ here.nvmQueue)
      exact ⟨.inl type, fun pc => ⟨here.buffer, rest, pc, here.ssd⟩⟩
  | buffer even queue =>
      obtain ⟨part, rest⟩ := List.forall_mem_cons.1 (queue ▸ here.buffer)
      exact ⟨.inr part, fun pc => ⟨rest, here.nvmQueue, pc, here.ssd⟩⟩

theorem front (fits : s.Fits) {turn : Turn} (step : FrontStep submitQueueNum s turn t) :
    t.Fits := by
  cases step with
  | @post i request rest next queue =>
      have waiting := fits.toPost i
      rw [next] at waiting
      exact
        { fits with
          toPost := (Function.forall_update_iff s.toPost fun _ list => ∀ r ∈ list, r.Inside).2
            ⟨fun r member => waiting r (List.mem_cons_of_mem _ member), fun j _ => fits.toPost j⟩
          submitted := (Function.forall_update_iff s.submitQueue fun _ list => ∀ task ∈ list,
              task.offset + task.len ≤ DEVICE_BLOCK_NUM).2
            ⟨List.forall_mem_append.2 ⟨fits.submitted i,
              List.forall_mem_singleton.2 (waiting request List.mem_cons_self i)⟩,
              fun j _ => fits.submitted j⟩ }
  | free => exact { fits with }
  | skip => exact { fits with }
  | schedule hand queue =>
      have waiting := fits.submitted s.idx
      rw [queue] at waiting
      exact
        { fits with
          submitted := (Function.forall_update_iff s.submitQueue fun _ list => ∀ task ∈ list,
              task.offset + task.len ≤ DEVICE_BLOCK_NUM).2
            ⟨fun r member => waiting r (List.mem_cons_of_mem _ member),
              fun j _ => fits.submitted j⟩
          hand := doSchedule_fits (handleTask_inside (waiting _ List.mem_cons_self)) }
  | toNvm hand inside =>
      have posts := fits.hand
      rw [hand] at posts
      obtain ⟨type, rest⟩ := List.forall_mem_cons.1 posts
      have here := fits.station ⟨_, inside⟩
      exact
        { fits with
          hand := rest
          station := fits.stations { here with
            nvmQueue := List.forall_mem_append.2
              ⟨here.nvmQueue, List.forall_mem_singleton.2 type⟩ } }
  | @toBuffer idx task rest hand =>
      have posts := fits.hand
      rw [hand] at posts
      obtain ⟨part, rest⟩ := List.forall_mem_cons.1 posts
      have here := fits.station idx
      exact
        { fits with
          hand := rest
          station := fits.stations { here with
            buffer := List.forall_mem_append.2 ⟨here.buffer, List.forall_mem_singleton.2 part⟩ } }

/-- Doing one thing more posts nothing new. -/
theorem rest (fits : s.Fits) {task : IoTask} {deed : Deed} {rest : List Deed}
    (doing : (s.station idx).nvm = .doing task (deed :: rest)) :
    (NvmPc.doing task rest).Fits idx := by
  have here := (fits.station idx).nvm
  rw [doing] at here
  exact ⟨fun posted later => here.posts posted (List.mem_cons_of_mem _ later), nofun⟩

theorem nvm (fits : s.Fits) (step : NvmStep s idx t) : t.Fits := by
  have here := fits.station idx
  cases step with
  | turn => exact { fits with station := fits.stations { here with } }
  | @nvmTask task _ _ takes _ =>
      have pc : (NvmPc.doing task (nvmWorkerNvmTask task)).Fits idx :=
        ⟨fun _ posts => absurd posts nvmWorkerNvmTask_posts, nofun⟩
      exact { fits with station := fits.stations ((fits.takes takes).2 pc) }
  | ssdTask _ takes type result =>
      obtain ⟨kind, station⟩ := fits.takes takes
      have part : Part idx _ := kind.resolve_left (by rw [type]; decide)
      refine { fits with station := fits.stations (station ⟨?_, nofun⟩) }
      intro posted member
      obtain ⟨a, inside, same⟩ := List.mem_map.1 member
      cases same
      exact (nvmWorkerSsdTask_actions part.inRange result).posts part.stripe inside
  | full _ takes type result =>
      obtain ⟨kind, station⟩ := fits.takes takes
      have part : Part idx _ := kind.resolve_left (by rw [type]; decide)
      obtain ⟨write, small⟩ := nvmWorkerSsdTask_full result
      have one := Nat.le_antisymm small part.inRange.1
      refine { fits with station := fits.stations (station ⟨fun _ posts => posts.elim, ?_⟩) }
      rintro task (same | same)
      · cases same
        exact ⟨write, one⟩
      · cases same
  | noTask _ takes _ _ =>
      exact { fits with station := fits.stations ((fits.takes takes).2 ⟨nofun, nofun⟩) }
  | @postSsd task posted rest doing =>
      have next : InStripe idx posted := by
        apply here.nvm.posts
        rw [doing]
        exact List.mem_cons_self
      refine { fits with
        station := fits.stations { here with nvm := fits.rest doing, ssd := ?_ } }
      intro task member
      simp only [Station.ssdTasks, List.mem_append, List.mem_singleton] at member
      rcases member with (queued | rfl) | inHand
      · exact here.ssd task (List.mem_append_left _ queued)
      · exact next
      · exact here.ssd task (List.mem_append_right _ inHand)
  | act _ doing =>
      exact { fits with station := fits.stations { here with nvm := fits.rest doing } }
  | nvmRead doing =>
      exact { fits with station := fits.stations { here with nvm := fits.rest doing } }
  | nvmWrite doing =>
      exact { fits with station := fits.stations { here with nvm := fits.rest doing } }
  | finish doing =>
      exact { fits with station := fits.stations { here with nvm := ⟨nofun, nofun⟩ } }
  | beginMigration full =>
      have pc := here.nvm.migrates _ (.inl full)
      refine { fits with
        station := fits.stations { here with nvm := ⟨fun _ posts => posts.elim, ?_⟩ } }
      rintro task (same | same)
      · cases same
      · cases same
        exact pc
  | endMigration migrating result =>
      obtain ⟨block, rfl⟩ := afterMigration_actions result
      refine { fits with station := fits.stations { here with nvm := ⟨?_, nofun⟩ } }
      intro posted member
      simp [NvmPc.Posts] at member

theorem ssd (fits : s.Fits) (step : SsdStep s idx t) : t.Fits := by
  have here := fits.station idx
  have tasks := here.ssd
  unfold Station.ssdTasks at tasks
  cases step with
  | take poll queue =>
      rw [poll, queue] at tasks
      refine { fits with station := fits.stations { here with ssd := ?_ } }
      simp only [Station.ssdTasks, SsdPhase.tasks, List.forall_mem_append] at tasks ⊢
      obtain ⟨first, rest⟩ := List.forall_mem_cons.1 tasks.1
      exact ⟨rest, List.forall_mem_singleton.2 first⟩
  | stage execute =>
      rw [execute] at tasks
      exact { fits with station := fits.stations { here with ssd := tasks } }
  | move staged =>
      rw [staged] at tasks
      exact { fits with station := fits.stations { here with ssd := tasks } }
  | count moved =>
      have queued := (List.forall_mem_append.1 tasks).1
      refine { fits with station := fits.stations { here with ssd := ?_ } }
      simpa [Station.ssdTasks, SsdPhase.tasks] using queued

theorem step (fits : s.Fits) {turn : Turn} (cases_ : StepCases submitQueueNum s turn t) :
    t.Fits := by
  cases cases_ with
  | front step => exact fits.front step
  | nvm idx _ step => exact fits.nvm step
  | ssd idx _ step => exact fits.ssd step
  | migrate _ _ _ _ result => exact result ▸ { fits with }

end Pipeline.Fits

theorem start_fits (m : Machine) (region : Nat → Block) {requests : Nat → List Request}
    (inside : ∀ i, ∀ request ∈ requests i, request.Inside) :
    (Pipeline.start m region requests).Fits where
  toPost := inside
  submitted := fun _ _ member => nomatch member
  hand := fun _ member => nomatch member
  station := fun _ => ⟨nofun, nofun, ⟨nofun, nofun⟩, nofun⟩

/-! ## The staging area -/

/-- The `len` blocks of the staging area from the start of slot `slot` on. -/
def stagingRange (slot len : Nat) : Set Nat :=
  {b | stagingBlock slot ≤ b ∧ b < stagingBlock slot + len}

/-- The staging blocks ssd_worker `w` uses for a task. -/
def stagedBlocks (w : SegIdx) (task : IoTask) : Set Nat :=
  if task.opcode &&& (MIX_READ ||| MIX_WRITE) = MIX_READ then
    stagingRange (readSlot task.offset) task.len
  else stagingRange w task.len

/-- The task fits slot `w`, as a read and as a write. -/
structure FitsSlot (w : SegIdx) (task : IoTask) : Prop where
  some_block : 1 ≤ task.len
  len_le : task.len ≤ 4
  stripe : ∀ b, task.offset ≤ b → b < task.offset + task.len → b / 4 = task.offset / 4
  segment : task.offset / 4 % 4 = w
  slot : (task.offset &&& 15) / 4 = w
  read : stagingRange (readSlot task.offset) task.len ⊆ stagingRange w 4
  write : stagingRange w task.len ⊆ stagingRange w 4

section

variable {w w' : SegIdx} {task task' : IoTask}

theorem InStripe.fitsSlot (stripe : InStripe w task) : FitsSlot w task := by
  have slot : readSlot task.offset = w := by rw [readSlot_eq, stripe.segment]
  have short := stripe.len_le
  have within : stagingRange w task.len ⊆ stagingRange w 4 := by
    rintro b ⟨low, high⟩
    exact ⟨low, by omega⟩
  refine ⟨stripe.some_block, short, ?_, ?_, slot, slot.symm ▸ within, within⟩
  · intro b low high
    have inside := stripe.inside
    simp only [STRIPE_SIZE] at inside
    omega
  · rw [← stripe.segment]
    rfl

theorem FitsSlot.staged (fits : FitsSlot w task) : stagedBlocks w task ⊆ stagingRange w 4 := by
  unfold stagedBlocks
  split
  · exact fits.read
  · exact fits.write

/-- Tasks of different ssd_workers use different blocks. -/
theorem FitsSlot.disjoint (fits : FitsSlot w task) (fits' : FitsSlot w' task') (other : w ≠ w') :
    ∀ b ∈ stagedBlocks w task, b ∉ stagedBlocks w' task' := by
  intro b inside inside'
  obtain ⟨low, high⟩ := fits.staged inside
  obtain ⟨low', high'⟩ := fits'.staged inside'
  apply other
  apply Fin.ext
  simp only [stagingBlock] at low high low' high'
  omega

end

/-- **Every SSD task of every reachable state fits its worker's slot.** -/
theorem ssdTasks_fit {submitQueueNum capacity : Nat} {m : Machine} {region : Nat → Block}
    {requests : Nat → List Request} (inside : ∀ i, ∀ request ∈ requests i, request.Inside)
    {turns : List Pipeline.Turn} {s : Pipeline}
    (ran : exec (Pipeline.step submitQueueNum capacity) (.start m region requests) turns = some s) :
    (∀ w, ∀ task ∈ (s.station w).ssdTasks, FitsSlot w task) ∧
      ∀ w w', w ≠ w' → ∀ task ∈ (s.station w).ssdTasks, ∀ task' ∈ (s.station w').ssdTasks,
        ∀ b ∈ stagedBlocks w task, b ∉ stagedBlocks w' task' := by
  have fits : s.Fits := exec_invariant
    (fun s _ _ fits stepped => fits.step (Pipeline.step_cases stepped)) ran
    (start_fits m region inside)
  have each w task (member : task ∈ (s.station w).ssdTasks) : FitsSlot w task :=
    ((fits.station w).ssd task member).fitsSlot
  exact ⟨each, fun w w' other task member task' member' =>
    (each w task member).disjoint (each w' task' member') other⟩

/-- A read of six blocks, over the border of two stripes: two tasks for two workers. -/
theorem twoStripes_fit : ∃ s, exec (Pipeline.step 1 4)
      (.fresh fun i => if i = 0 then [.read 0 6 (SCHEDULER_THRESHOLD + 2) 0 8 0] else [])
      [.post 0, .scheduler, .scheduler, .scheduler, .nvm 0, .nvm 0, .nvm 1, .nvm 1] = some s ∧
    (s.station 0).ssdTasks.length = 1 ∧ (s.station 1).ssdTasks.length = 1 ∧
    (∀ w, ∀ task ∈ (s.station w).ssdTasks, FitsSlot w task) ∧
      ∀ w w', w ≠ w' → ∀ task ∈ (s.station w).ssdTasks, ∀ task' ∈ (s.station w').ssdTasks,
        ∀ b ∈ stagedBlocks w task, b ∉ stagedBlocks w' task' := by
  have posted : ((exec (Pipeline.step 1 4)
      (.fresh fun i => if i = 0 then [.read 0 6 (SCHEDULER_THRESHOLD + 2) 0 8 0] else [])
      [.post 0, .scheduler, .scheduler, .scheduler, .nvm 0, .nvm 0, .nvm 1, .nvm 1]).map fun s =>
        ((s.station 0).ssdTasks.length, (s.station 1).ssdTasks.length)) = some (1, 1) := by
    decide +kernel
  obtain ⟨s, ran, lengths⟩ := Option.map_eq_some_iff.1 posted
  simp only [Prod.mk.injEq] at lengths
  refine ⟨s, ran, lengths.1, lengths.2, ssdTasks_fit ?_ ran⟩
  intro i request member j
  split at member
  · rw [List.mem_singleton.1 member]
    show SCHEDULER_THRESHOLD + 2 + 6 ≤ DEVICE_BLOCK_NUM
    decide
  · cases member

end Mixdk
