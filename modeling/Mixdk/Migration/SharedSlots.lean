/-
# Migration.SharedSlots -- who shares a staging slot

`mix_ssd_write` copies its caller's blocks into the staging slot the caller names, and
then writes the slot to the device.  The four ssd_workers each name their own slot, and
their writes are no longer than a slot.  The eight migrate threads all name slot 0,
which is that of ssd_worker 0.

`Writers` is all callers, each with the calls it has still to make, in any interleaving
of the copies and writes.  When no caller copies different blocks over those of a caller
of the same slot that has still to write them (`CopyGuard`), every write stores its own
caller's blocks (`stores_own`); any other copy corrupts the other caller's next write
(`corrupts_of_overwrite`).
-/
import Mixdk.Migration.Drain

namespace Mixdk

open Transition

set_option autoImplicit false

/-- The threads that call `mix_ssd_write`. -/
inductive Caller
  /-- `migrate_from_buffer_to_ssd` in migrate thread `t` -/
  | migrate (t : Fin MIGRATE_THREAD_NUM)
  | ssdWorker (w : SegIdx)
deriving DecidableEq

/-- The staging slot the caller passes as `idx`. -/
def Caller.slot : Caller → Nat
  | .migrate _ => MIGRATE_STAGING_SLOT
  | .ssdWorker w => w

/-- The arguments of a call: the blocks at `src`, and where they go. -/
structure WriteCall where
  src : Nat → Block
  len : Nat
  offset : Nat

/-- `migrate_from_buffer_to_ssd` writes one block, an ssd_worker's task at most a stripe. -/
def WriteCall.Fits (call : WriteCall) : Caller → Prop
  | .migrate _ => call.len = 1
  | .ssdWorker _ => call.len ≤ 4

/-- A write that has been made: its call, and what it stored from `offset` on. -/
structure WriteDone where
  call : WriteCall
  stored : Nat → Block

structure Writers where
  m : Machine
  /-- The calls each thread has still to make. -/
  todo : Caller → List WriteCall
  /-- The call whose blocks the thread has copied and not written yet. -/
  copied : Caller → Option WriteCall
  done : List WriteDone

namespace Writers

def start (m : Machine) (todo : Caller → List WriteCall) : Writers :=
  { m := m, todo := todo, copied := fun _ => none, done := [] }

/-- The `memcpy` of a call. -/
def copy (s : Writers) (c : Caller) (call : WriteCall) (rest : List WriteCall) : Writers :=
  { s with
    m := s.m.ssdWriteStage call.src call.len c.slot
    todo := Function.update s.todo c rest
    copied := Function.update s.copied c (some call) }

/-- Its `pwrite`. -/
def write (s : Writers) (c : Caller) (call : WriteCall) : Writers :=
  let m := s.m.ssdWriteFlush call.len call.offset c.slot
  { s with
    m := m
    copied := Function.update s.copied c none
    done := s.done ++ [{ call := call, stored := fun j => m.ssd (call.offset + j) }] }

/-- The thread makes its next copy, or the write that follows it. -/
def step (s : Writers) (c : Caller) : Option Writers :=
  match s.copied c with
  | none =>
      match s.todo c with
      | [] => none
      | call :: rest => some (s.copy c call rest)
  | some call => some (s.write c call)

@[simp] theorem copy_todo (s : Writers) (c : Caller) (call : WriteCall) (rest : List WriteCall) :
    (s.copy c call rest).todo = Function.update s.todo c rest := rfl

@[simp] theorem copy_copied (s : Writers) (c : Caller) (call : WriteCall)
    (rest : List WriteCall) :
    (s.copy c call rest).copied = Function.update s.copied c (some call) := rfl

@[simp] theorem write_copied (s : Writers) (c : Caller) (call : WriteCall) :
    (s.write c call).copied = Function.update s.copied c none := rfl

/-- Each write made has stored what its own caller passed. -/
def StoresOwn (s : Writers) : Prop := ∀ w ∈ s.done, ∀ j < w.call.len, w.stored j = w.call.src j

end Writers

/-- A copy does not change blocks another caller of the slot has still to write. -/
def CopyGuard (s : Writers) (c : Caller) : Prop :=
  s.copied c = none → ∀ call rest, s.todo c = call :: rest →
    ∀ u ≠ c, u.slot = c.slot → ∀ other, s.copied u = some other →
      ∀ j, j < call.len → j < other.len → call.src j = other.src j

section

variable {s s' : Writers} {c u : Caller}

/-- The blocks of a slot that fit do not reach into another slot. -/
theorem slots_apart {a b i j : Nat} (other : a ≠ b) (low : i < 4) (high : j < 4) :
    stagingBlock a + i ≠ stagingBlock b + j := by
  unfold stagingBlock
  omega

theorem WriteCall.Fits.len_le {call : WriteCall} (fits : call.Fits c) : call.len ≤ 4 := by
  cases c with
  | migrate t =>
      have one : call.len = 1 := fits
      omega
  | ssdWorker w => exact fits

theorem ssdWriteStage_inside (m : Machine) (src : Nat → Block) {len j : Nat} (slot : Nat)
    (inside : j < len) :
    (m.ssdWriteStage src len slot).memalignSrc (stagingBlock slot + j) = src j := by
  show (if stagingBlock slot ≤ stagingBlock slot + j ∧
    stagingBlock slot + j < stagingBlock slot + len then src (stagingBlock slot + j -
      stagingBlock slot) else _) = _
  rw [if_pos ⟨Nat.le_add_right _ _, by omega⟩, Nat.add_sub_cancel_left]

theorem ssdWriteStage_outside (m : Machine) (src : Nat → Block) {len b : Nat} (slot : Nat)
    (outside : ¬ (stagingBlock slot ≤ b ∧ b < stagingBlock slot + len)) :
    (m.ssdWriteStage src len slot).memalignSrc b = m.memalignSrc b :=
  if_neg outside

theorem ssdWriteFlush_inside (m : Machine) {len j : Nat} (offset slot : Nat) (inside : j < len) :
    (m.ssdWriteFlush len offset slot).ssd (offset + j) = m.memalignSrc (stagingBlock slot + j) := by
  show (if offset ≤ offset + j ∧ offset + j < offset + len then
    m.memalignSrc (stagingBlock slot + (offset + j - offset)) else _) = _
  rw [if_pos ⟨Nat.le_add_right _ _, by omega⟩, Nat.add_sub_cancel_left]

/-- The blocks a caller has copied are in its slot. -/
def Holding (s : Writers) (c : Caller) (call : WriteCall) : Prop :=
  ∀ j < call.len, s.m.memalignSrc (stagingBlock c.slot + j) = call.src j

/-- What guarded steps keep. -/
structure Writers.Kept (s : Writers) : Prop where
  todo : ∀ c, ∀ call ∈ s.todo c, call.Fits c
  copied : ∀ c call, s.copied c = some call → call.Fits c ∧ Holding s c call
  done : s.StoresOwn

/-- A copy leaves the blocks of the other callers as they are. -/
theorem Holding.copy {call other : WriteCall} (holding : Holding s u other) (fits : call.Fits c)
    (fits' : other.Fits u)
    (same : u.slot = c.slot → ∀ j, j < call.len → j < other.len → call.src j = other.src j)
    (m : s'.m = s.m.ssdWriteStage call.src call.len c.slot) : Holding s' u other := by
  intro j inside
  have short := fits.len_le
  have short' := fits'.len_le
  rw [m]
  by_cases shared : u.slot = c.slot
  · rw [shared]
    by_cases covered : j < call.len
    · rw [ssdWriteStage_inside s.m call.src c.slot covered]
      exact same shared j covered inside
    · rw [ssdWriteStage_outside s.m call.src c.slot (by omega), ← shared]
      exact holding j inside
  · have apart : ¬ (stagingBlock c.slot ≤ stagingBlock u.slot + j ∧
        stagingBlock u.slot + j < stagingBlock c.slot + call.len) := by
      rintro ⟨low, high⟩
      exact slots_apart shared (show j < 4 by omega)
        (show stagingBlock u.slot + j - stagingBlock c.slot < 4 by omega) (by omega)
    rw [ssdWriteStage_outside s.m call.src c.slot apart]
    exact holding j inside

/-- **One guarded step.** -/
theorem Writers.Kept.step (kept : s.Kept) (guarded : CopyGuard s c) (stepped : s.step c = some s') :
    s'.Kept := by
  unfold Writers.step at stepped
  cases at_ : s.copied c with
  | none =>
      cases queue : s.todo c with
      | nil =>
          rw [at_, queue] at stepped
          cases stepped
      | cons call rest =>
          simp only [at_, queue, Option.some.injEq] at stepped
          subst stepped
          have fits := kept.todo c call (by rw [queue]; exact List.mem_cons_self)
          refine ⟨fun u other member => ?_, fun u other held => ?_, kept.done⟩
          · by_cases mine : u = c
            · subst mine
              simp only [Writers.copy_todo, Function.update_self] at member
              exact kept.todo u other (by rw [queue]; exact List.mem_cons_of_mem _ member)
            · simp only [Writers.copy_todo, Function.update_of_ne mine] at member
              exact kept.todo u other member
          · by_cases mine : u = c
            · subst mine
              simp only [Writers.copy_copied, Function.update_self, Option.some.injEq] at held
              subst held
              exact ⟨fits, fun j inside => ssdWriteStage_inside s.m call.src u.slot inside⟩
            · simp only [Writers.copy_copied, Function.update_of_ne mine] at held
              obtain ⟨fits', holding⟩ := kept.copied u other held
              refine ⟨fits', holding.copy fits fits' ?_ rfl⟩
              exact fun shared => guarded at_ call rest queue u mine shared other held
  | some call =>
      simp only [at_, Option.some.injEq] at stepped
      subst stepped
      obtain ⟨-, holding⟩ := kept.copied c call at_
      refine ⟨kept.todo, fun u other held => ?_, fun w member j inside => ?_⟩
      · by_cases mine : u = c
        · subst mine
          simp only [Writers.write_copied, Function.update_self] at held
          cases held
        · simp only [Writers.write_copied, Function.update_of_ne mine] at held
          exact kept.copied u other held
      · rcases List.mem_append.1 member with old | new
        · exact kept.done w old j inside
        · obtain rfl := List.mem_singleton.1 new
          simp only at inside ⊢
          rw [ssdWriteFlush_inside s.m call.offset c.slot inside]
          exact holding j inside

/-- **When no copy comes between another caller's copy and write with different blocks, every
write stores its own caller's blocks.** -/
theorem stores_own {m : Machine} {todo : Caller → List WriteCall} {callers : List Caller}
    (fits : ∀ c, ∀ call ∈ todo c, call.Fits c)
    (run : Run Writers.step CopyGuard (Writers.start m todo) callers s) : s.StoresOwn := by
  have begun : (Writers.start m todo).Kept := ⟨fits, nofun, nofun⟩
  have kept := run.invariant (fun s c s' kept guarded stepped => kept.step guarded stepped) begun
  exact kept.done

/-- Any other copy corrupts what the other caller writes next. -/
theorem corrupts_of_overwrite {call other : WriteCall} {rest : List WriteCall} {j : Nat}
    (idle : s.copied c = none) (queue : s.todo c = call :: rest) (others : u ≠ c)
    (shared : u.slot = c.slot) (held : s.copied u = some other) (inside : j < call.len)
    (inside' : j < other.len) (differ : call.src j ≠ other.src j) :
    ∃ s', exec Writers.step s [c, u] = some s' ∧ ¬ s'.StoresOwn := by
  have first : s.step c = some (s.copy c call rest) := by
    simp only [Writers.step, idle, queue]
  have still : (s.copy c call rest).copied u = some other := by
    rw [Writers.copy_copied, Function.update_of_ne others, held]
  have second : (s.copy c call rest).step u = some ((s.copy c call rest).write u other) := by
    simp only [Writers.step, still]
  refine ⟨_, exec_cons_eq_some.2 ⟨_, first, exec_cons_eq_some.2 ⟨_, second, rfl⟩⟩, ?_⟩
  intro own
  have written := own _ (List.mem_append_right _ List.mem_cons_self) j inside'
  simp only at written
  rw [ssdWriteFlush_inside _ other.offset u.slot inside', shared] at written
  have staged := ssdWriteStage_inside s.m call.src c.slot inside
  exact differ (staged.symm.trans written)

end

/-! ## Two migrate threads -/

/-- One block with byte `byte` throughout, for block `offset`. -/
def oneBlock (byte : UInt8) (offset : Nat) : WriteCall :=
  { src := fun _ _ => byte, len := 1, offset := offset }

/-- Migrate threads 0 and 1 have a block each, for SSD blocks 5 and 6. -/
def twoMigrations : Caller → List WriteCall
  | .migrate t => if t.val = 0 then [oneBlock 1 5] else if t.val = 1 then [oneBlock 2 6] else []
  | .ssdWorker _ => []

def blankWriters : Machine :=
  .blank (mixMetadataInit BUFFER_BLOCK_NUM) { data := fun _ _ => 0, metas := fun _ => ⟨0, 0, 0, 0⟩ }

/-- Both copy, then the first one writes the second one's block. -/
theorem twoMigrations_mix : ∃ s, exec Writers.step (Writers.start blankWriters twoMigrations)
    [.migrate 0, .migrate 1, .migrate 0] = some s ∧ ¬ s.StoresOwn := by
  refine ⟨_, rfl, fun own => ?_⟩
  have written := congrFun (own _ List.mem_cons_self 0 (by decide)) ⟨0, by decide⟩
  exact absurd written (by decide)

theorem twoMigrations_fit : ∀ c, ∀ call ∈ twoMigrations c, call.Fits c := by
  intro c call member
  cases c with
  | migrate t =>
      simp only [twoMigrations] at member
      split at member
      · obtain rfl := List.mem_singleton.1 member
        rfl
      · split at member
        · obtain rfl := List.mem_singleton.1 member
          rfl
        · cases member
  | ssdWorker w => cases member

/-- One after the other they do not mix. -/
theorem twoMigrations_in_turn : ∃ s, Run Writers.step CopyGuard
    (Writers.start blankWriters twoMigrations)
    [.migrate 0, .migrate 0, .migrate 1, .migrate 1] s ∧ s.StoresOwn := by
  have run : ∃ s, Run Writers.step CopyGuard (Writers.start blankWriters twoMigrations)
      [.migrate 0, .migrate 0, .migrate 1, .migrate 1] s := by
    refine ⟨_, .cons ?_ rfl (.cons ?_ rfl (.cons ?_ rfl (.cons ?_ rfl (.nil _))))⟩
    · intro _ call rest _ u _ _ other held
      cases held
    · intro busy
      cases busy
    · intro _ call rest _ u others _ other held
      by_cases first : u = .migrate 0
      · subst first
        cases held
      · have idle : (none : Option WriteCall) = some other := by
          rw [← held]
          simp [Writers.start, first]
        cases idle
    · intro busy
      cases busy
  obtain ⟨s, ran⟩ := run
  exact ⟨s, ran, stores_own twoMigrations_fit ran⟩

end Mixdk
