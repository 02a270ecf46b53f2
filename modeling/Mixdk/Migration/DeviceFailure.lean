/-
# Migration.DeviceFailure -- a write that the device does not complete

`Core.Migrate` takes every `pwrite` to store its block.  Here the device decides for each SSD
block how much of it is stored (`Pwrite`).  `mix_ssd_write` does not look at the result and
returns `len`, and `migrate_from_buffer_to_ssd` invalidates the record in any case, so nothing
but the content of the SSD depends on the device (`migrateStepOn_blind`): a migration loses
every block whose write fails (`failed_kept_iff`).  Only in segments 1 to 3 the records of
the failed blocks survive, because there the threads invalidate records of segment 0.
-/
import Mixdk.Index.Agreement

namespace Mixdk

set_option autoImplicit false

open Transition

/-- What a `pwrite` of one block does. -/
inductive Pwrite
  /-- Stores that many bytes, from the start of the block, and returns their number. -/
  | stored (bytes : Fin (BLOCK_SIZE + 1))
  /-- Returns -1. -/
  | failed
deriving DecidableEq

namespace Pwrite

def bytes : Pwrite → Nat
  | stored bytes => bytes
  | failed => 0

/-- The whole block is stored. -/
def Full (p : Pwrite) : Prop := p.bytes = BLOCK_SIZE

instance (p : Pwrite) : Decidable p.Full := inferInstanceAs (Decidable (p.bytes = BLOCK_SIZE))

end Pwrite

/-- `mix_ssd_write` of one block: the `pwrite` from staging slot `idx`, with this outcome. -/
def Machine.ssdWriteFlushOn (m : Machine) (outcome : Pwrite) (offset idx : Nat) : Machine :=
  let block := fun j : Fin BLOCK_SIZE =>
    if j.val < outcome.bytes then m.memalignSrc (stagingBlock idx) j else m.ssd offset j
  { m with ssd := Function.update m.ssd offset block }

/-- One action of a migrate thread, on a device that treats a write to block `k` as `device k`
says. -/
def migrateActionOn {T : Nat} (device : Nat → Pwrite) (idx : SegIdx) (t : Fin T) (m : Machine) :
    MigratePc → Option (Machine × MigratePc)
  | .flush bucket kv =>
      some (m.ssdWriteFlushOn (device kv.1) kv.1 MIGRATE_STAGING_SLOT, .clear bucket kv)
  | pc => migrateAction idx t m pc

def migrateStepOn {T : Nat} (device : Nat → Pwrite) (idx : SegIdx) (s : MigrateState T)
    (t : Fin T) : Option (MigrateState T) :=
  (migrateActionOn device idx t s.m (s.pc t)).map fun next =>
    { m := next.1, pc := Function.update s.pc t next.2 }

/-- `mix_migrate_segment` on that device. -/
def mixMigrateSegmentOn (device : Nat → Pwrite) (m : Machine) (idx : SegIdx)
    (sched : List (Fin MIGRATE_THREAD_NUM)) : Option Machine :=
  (exec (migrateStepOn device idx) (migrationStart m MIGRATE_THREAD_NUM) sched).bind fun s =>
    if ∀ t, s.pc t = .done then some (migrationEnd s.m idx) else none

/-- Every block of the segment that the SSD did not store in full has a valid record that
names it. -/
def KeepsFailed (device : Nat → Pwrite) (idx : SegIdx) (m m' : Machine) : Prop :=
  ∀ kv ∈ (m.segment idx).hash.entries, ¬ (device kv.1).Full →
    RecordNames m'.nvm (m.md.bufferBlock idx kv.2) kv.1

/-! ## Nothing but the SSD depends on the device -/

/-- A machine without the content of its SSD. -/
def Machine.blind (m : Machine) : Machine := { m with ssd := fun _ _ => 0 }

def MigrateState.blind {T : Nat} (s : MigrateState T) : MigrateState T := { s with m := s.m.blind }

section

variable {T : Nat} {idx : SegIdx} {device : Nat → Pwrite} {m m' : Machine}

theorem Machine.eq_of_blind (same : m.blind = m'.blind) : m = { m' with ssd := m.ssd } := by
  have fields := (Machine.mk.injEq ..).mp same
  cases m
  simp only [Machine.mk.injEq] at fields ⊢
  tauto

/-- A write that stores the whole block is the write of `Core.Migrate`. -/
theorem ssdWriteFlushOn_full {outcome : Pwrite} (full : outcome.Full) (offset slot : Nat) :
    m.ssdWriteFlushOn outcome offset slot = m.ssdWriteFlush 1 offset slot := by
  have ssd := ssdWriteFlush_one m offset slot
  have block : (fun j : Fin BLOCK_SIZE =>
      if j.val < outcome.bytes then m.memalignSrc (stagingBlock slot) j else m.ssd offset j) =
        m.memalignSrc (stagingBlock slot) := by
    funext j
    rw [full, if_pos j.isLt]
  rw [Machine.ssdWriteFlushOn, block, ← ssd]
  rfl

/-- On a device that stores every block this is the migration of `Core.Migrate`. -/
theorem mixMigrateSegmentOn_full (full : ∀ k, (device k).Full) (m : Machine) (idx : SegIdx)
    (sched : List (Fin MIGRATE_THREAD_NUM)) :
    mixMigrateSegmentOn device m idx sched = mixMigrateSegment m idx sched := by
  have step : migrateStepOn (T := MIGRATE_THREAD_NUM) device idx = migrateStep idx := by
    funext s t
    rw [migrateStepOn, migrateStep]
    cases s.pc t with
    | flush bucket kv =>
        rw [migrateActionOn, ssdWriteFlushOn_full (full kv.1), migrateAction]
    | _ => rfl
  rw [mixMigrateSegmentOn, mixMigrateSegment, step]

/-- On machines that differ in the SSD only, an action does the same but for the SSD. -/
theorem migrateAction_blind (t : Fin T) (x : Nat → Block) (pc : MigratePc) :
    (migrateAction idx t { m with ssd := x } pc).map (fun next => (next.1.blind, next.2)) =
      (migrateAction idx t m pc).map fun next => (next.1.blind, next.2) := by
  cases pc with
  | pop bucket =>
      have segment : Machine.segment { m with ssd := x } idx = m.segment idx := rfl
      simp only [migrateAction, segment]
      split
      next =>
        cases mixHashGetEntryByIdx (m.segment idx).hash bucket with
        | none => rfl
        | some found =>
            simp only [Option.map_some]
            split <;> rfl
      next => rfl
  | _ => rfl

theorem migrateActionOn_blind (t : Fin T) (m : Machine) (pc : MigratePc) :
    (migrateActionOn device idx t m pc).map (fun next => (next.1.blind, next.2)) =
      (migrateAction idx t m pc).map fun next => (next.1.blind, next.2) := by
  cases pc <;> rfl

/-- **A step on any device is the step of `Core.Migrate`, but for the SSD.** -/
theorem migrateStepOn_blind (s s' : MigrateState T) (t : Fin T) (same : s.blind = s'.blind) :
    (migrateStepOn device idx s t).map MigrateState.blind =
      (migrateStep idx s' t).map MigrateState.blind := by
  obtain ⟨machine, pcs⟩ := (MigrateState.mk.injEq ..).mp same
  have other := Machine.eq_of_blind machine
  have action : (migrateActionOn device idx t s.m (s.pc t)).map
        (fun next => (next.1.blind, next.2)) =
      (migrateAction idx t s'.m (s'.pc t)).map fun next => (next.1.blind, next.2) := by
    rw [migrateActionOn_blind, other, migrateAction_blind, pcs]
  have outcome := congrArg (Option.map fun next : Machine × MigratePc =>
    ({ m := next.1, pc := Function.update s'.pc t next.2 } : MigrateState T)) action
  rw [Option.map_map, Option.map_map, pcs] at outcome
  rw [migrateStepOn, migrateStep, Option.map_map, Option.map_map, pcs]
  exact outcome

/-- A migration on any device ends where the one of `Core.Migrate` ends, with the same NVM. -/
theorem mixMigrateSegmentOn_blind (device : Nat → Pwrite) (m : Machine) (idx : SegIdx)
    (sched : List (Fin MIGRATE_THREAD_NUM)) :
    (mixMigrateSegmentOn device m idx sched).map Machine.blind =
      (mixMigrateSegment m idx sched).map Machine.blind := by
  have runs : (exec (migrateStepOn device idx) (migrationStart m MIGRATE_THREAD_NUM) sched).map
        MigrateState.blind =
      (exec (migrateStep idx) (migrationStart m MIGRATE_THREAD_NUM) sched).map MigrateState.blind :=
    exec_view (fun s s' t same => migrateStepOn_blind s s' t same) rfl sched
  rw [mixMigrateSegmentOn, mixMigrateSegment]
  cases on : exec (migrateStepOn device idx) (migrationStart m MIGRATE_THREAD_NUM) sched with
  | none =>
      rw [on, Option.map_none, eq_comm, Option.map_eq_none_iff] at runs
      rw [runs]
  | some s =>
      rw [on, Option.map_some, eq_comm, Option.map_eq_some_iff] at runs
      obtain ⟨s', ran, same⟩ := runs
      obtain ⟨machine, pcs⟩ := (MigrateState.mk.injEq ..).mp same
      rw [ran, Option.bind_some, Option.bind_some, pcs]
      split
      next =>
        refine congrArg some ?_
        rw [Machine.eq_of_blind machine]
        rfl
      next => rfl

/-- A migration on any device has a counterpart in `Core.Migrate` that leaves the same NVM. -/
theorem mixMigrateSegmentOn_eq_some {sched : List (Fin MIGRATE_THREAD_NUM)}
    (ran : mixMigrateSegmentOn device m idx sched = some m') :
    ∃ full, mixMigrateSegment m idx sched = some full ∧ full.nvm = m'.nvm := by
  have same := mixMigrateSegmentOn_blind device m idx sched
  rw [ran, Option.map_some, eq_comm, Option.map_eq_some_iff] at same
  obtain ⟨full, ran', blind⟩ := same
  exact ⟨full, ran', ((Machine.mk.injEq ..).mp blind).2.1⟩

/-- It can come to its end. -/
theorem exists_mixMigrateSegmentOn (device : Nat → Pwrite) (ok : Drainable (m.segment idx).hash) :
    ∃ sched m', mixMigrateSegmentOn device m idx sched = some m' := by
  obtain ⟨sched, s, drain, -, ends⟩ := exists_end (T := MIGRATE_THREAD_NUM) ok (Draining.start m ok)
  have full := mixMigrateSegment_eq_some.2 ⟨s, drain, ends, rfl⟩
  have same := mixMigrateSegmentOn_blind device m idx sched
  rw [full, Option.map_some, Option.map_eq_some_iff] at same
  obtain ⟨m', ran, -⟩ := same
  exact ⟨sched, m', ran⟩

/-! ## The records of the failed blocks -/

/-- The failed blocks keep their records exactly when no entry's slot, taken for a buffer block
number, is one of theirs. -/
theorem keepsFailed_iff {sched : List (Fin MIGRATE_THREAD_NUM)}
    (ok : Drainable (m.segment idx).hash)
    (recorded : ∀ kv ∈ (m.segment idx).hash.entries,
      RecordNames m.nvm (m.md.bufferBlock idx kv.2) kv.1)
    (ran : mixMigrateSegmentOn device m idx sched = some m') :
    KeepsFailed device idx m m' ↔ ∀ kv ∈ (m.segment idx).hash.entries, ¬ (device kv.1).Full →
      ¬ ∃ other ∈ (m.segment idx).hash.entries, other.2 = m.md.bufferBlock idx kv.2 := by
  obtain ⟨full, ran', nvm⟩ := mixMigrateSegmentOn_eq_some ran
  have done := migrated ok ran'
  refine forall₂_congr fun kv entry => imp_congr_right fun _ => ?_
  rw [← nvm, done.recordNames, and_iff_left (recorded kv entry)]

end

/-- **Every migration ends, and the failed blocks are still valid in the buffer exactly when
none has failed or the segment is not the first one.** -/
theorem failed_kept_iff (device : Nat → Pwrite) {m : Machine} {idx : SegIdx}
    (ok : Drainable (m.segment idx).hash)
    (slots : ∀ kv ∈ (m.segment idx).hash.entries, kv.2 < m.md.perBlockNum)
    (recorded : ∀ kv ∈ (m.segment idx).hash.entries,
      RecordNames m.nvm (m.md.bufferBlock idx kv.2) kv.1) :
    (∃ sched m', mixMigrateSegmentOn device m idx sched = some m') ∧
      ∀ sched m', mixMigrateSegmentOn device m idx sched = some m' →
        (KeepsFailed device idx m m' ↔
          (idx.val = 0 → ∀ kv ∈ (m.segment idx).hash.entries, (device kv.1).Full)) := by
  refine ⟨exists_mixMigrateSegmentOn device ok, fun sched m' ran => ?_⟩
  rw [keepsFailed_iff ok recorded ran]
  constructor
  · intro kept first kv entry
    by_contra short
    exact kept kv entry short ⟨kv, entry, (bufferBlock_first m.md first kv.2).symm⟩
  · rintro full kv entry short ⟨other, entry', same⟩
    -- a slot is a buffer block of segment 0
    rw [← bufferBlock_zero m.md other.2] at same
    obtain ⟨first, -⟩ := bufferBlock_inj (slots other entry') (slots kv entry) same
    exact short (full (congrArg Fin.val first).symm kv entry)

/-! ## One buffered block in segment 0 -/

/-- Segment 0. -/
def segmentZero : SegIdx := ⟨0, Nat.zero_lt_succ 3⟩

/-- Segment 0 with block 4 in its slot 0. -/
def oneBufferedFirst : Machine :=
  .blank ((mixMetadataInit BUFFER_BLOCK_NUM).setSegment segmentZero
      { hash := mixHashPut (mixHashInit 100) 4 0
        bitmap := (mixBitmapSetBit (mixBitmapInit 1024) 0).2
        usedBlockNum := 1 })
    { data := fun _ _ => 1, metas := fun b => if b = 0 then ⟨1, 0, 4, MIX_WRITE⟩ else ⟨0, 0, 0, 0⟩ }

theorem oneBufferedFirst_entries :
    (oneBufferedFirst.segment segmentZero).hash.entries = [(4, 0)] := by
  have put := (Hash.Sound.init (Nat.zero_lt_succ 99)).entries_put 4 0
  rw [entries_init] at put
  simp only [oneBufferedFirst, Machine.blank, Machine.segment, Metadata.setSegment_self]
  exact List.perm_singleton.1 put

theorem oneBufferedFirst_drainable : Drainable (oneBufferedFirst.segment segmentZero).hash where
  proper := by rw [Hash.Proper, oneBufferedFirst_entries]; decide
  distinct := by rw [oneBufferedFirst_entries]; decide
  lens := by
    simp only [oneBufferedFirst, Machine.blank, Machine.segment, Metadata.setSegment_self]
    exact (Hash.Sound.one (by decide) 4 0).lens

theorem oneBufferedFirst_recorded :
    ∀ kv ∈ (oneBufferedFirst.segment segmentZero).hash.entries,
      RecordNames oneBufferedFirst.nvm (oneBufferedFirst.md.bufferBlock segmentZero kv.2) kv.1 := by
  rw [oneBufferedFirst_entries]
  intro kv entry
  rw [List.mem_singleton.1 entry]
  exact ⟨by decide, by decide⟩

/-- A device that stores half of the block. -/
theorem failed_kept_iff_half :
    let device := fun _ => Pwrite.stored ⟨2048, by decide⟩
    (∃ sched m', mixMigrateSegmentOn device oneBufferedFirst segmentZero sched = some m') ∧
      ∀ sched m', mixMigrateSegmentOn device oneBufferedFirst segmentZero sched = some m' →
        (KeepsFailed device segmentZero oneBufferedFirst m' ↔
          (segmentZero.val = 0 → ∀ kv ∈ (oneBufferedFirst.segment segmentZero).hash.entries,
            (device kv.1).Full)) :=
  failed_kept_iff _ oneBufferedFirst_drainable (by rw [oneBufferedFirst_entries]; decide)
    oneBufferedFirst_recorded

/-- The only write fails, and the record of its block is not valid any more. -/
theorem failed_not_kept :
    ∃ sched m', mixMigrateSegmentOn (fun _ => .failed) oneBufferedFirst segmentZero sched = some m' ∧
      ¬ KeepsFailed (fun _ => .failed) segmentZero oneBufferedFirst m' := by
  have ok := oneBufferedFirst_drainable
  obtain ⟨sched, m', ran⟩ := exists_mixMigrateSegmentOn (fun _ => .failed) ok
  refine ⟨sched, m', ran, fun kept => ?_⟩
  rw [keepsFailed_iff ok oneBufferedFirst_recorded ran, oneBufferedFirst_entries] at kept
  exact kept (4, 0) List.mem_cons_self (by decide) ⟨(4, 0), List.mem_cons_self, by decide⟩

end Mixdk
