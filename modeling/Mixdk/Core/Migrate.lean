/-
# Core.Migrate -- draining a segment into the SSD

`mix_migrate_segment` and the threads of `migrate`.  Thread `t` of `T` walks the
buckets `t`, `t + T`, ... of the segment's hash and pops each to its end.  A
popped pair (block `k`, slot `v`) goes through `migrate_from_buffer_to_ssd`: copy
buffer block `v` into the thread's own `migrate_buf`, copy that into the staging
area, `pwrite` it to SSD block `k`, invalidate buffer block `v`.  Two things are
as in the source: the slot `v` is passed on as a buffer block number, without the
segment's base, and every thread calls `mix_ssd_write` with staging slot 0.

A step of thread `t` (`migrateStep`) is one of these actions, so a list of thread
indices is an interleaving.  `mixMigrateSegment` returns when the interleaving
has brought every thread to the end of its walk.
-/
import Mixdk.Core.Machine
import Mixdk.Lib.Transition

namespace Mixdk

set_option autoImplicit false

open Transition

/-- `meta_data->migrate_thread_num`. -/
abbrev MIGRATE_THREAD_NUM : Nat := 8

/-- Where a migrate thread is in its walk; `bucket` is `migrate_idx`. -/
inductive MigratePc
  /-- Before `mix_hash_get_entry_by_idx(hash, bucket)`, or before the loop test. -/
  | pop (bucket : Nat)
  /-- Before `mix_buffer_read(migrate_buf[t], kv.value, 0)`. -/
  | read (bucket : Nat) (kv : MixKv)
  /-- Before the `memcpy` of `mix_ssd_write`. -/
  | stage (bucket : Nat) (kv : MixKv)
  /-- Before the `pwrite` of `mix_ssd_write`. -/
  | flush (bucket : Nat) (kv : MixKv)
  /-- Before `mix_buffer_clear(kv.value)`. -/
  | clear (bucket : Nat) (kv : MixKv)
  /-- Before `used_block_num--`. -/
  | count (bucket : Nat) (kv : MixKv)
  | done
deriving DecidableEq

structure MigrateState (T : Nat) where
  m : Machine
  pc : Fin T → MigratePc

namespace Machine

def segment (m : Machine) (idx : SegIdx) : Segment := m.md.segments idx

def setSegment (m : Machine) (idx : SegIdx) (seg : Segment) : Machine :=
  { m with md := m.md.setSegment idx seg }

@[simp] theorem segment_setSegment (m : Machine) (idx : SegIdx) (seg : Segment) :
    (m.setSegment idx seg).segment idx = seg := by simp [setSegment, segment]

@[simp] theorem setSegment_same (m : Machine) (idx : SegIdx) :
    m.setSegment idx (m.segment idx) = m := by simp [setSegment, segment]

end Machine

/-- The staging slot `migrate_from_buffer_to_ssd` passes to `mix_ssd_write`. -/
def MIGRATE_STAGING_SLOT : Nat := 0

/-- One action of thread `t` on segment `idx`: the machine and the thread's next point. -/
def migrateAction {T : Nat} (idx : SegIdx) (t : Fin T) (m : Machine) :
    MigratePc → Option (Machine × MigratePc)
  | .pop bucket =>
      let seg := m.segment idx
      if bucket < seg.hash.hashSize then
        (mixHashGetEntryByIdx seg.hash bucket).map fun (kv, hash) =>
          let m := m.setSegment idx { seg with hash := hash }
          -- the end marker leaves the inner loop, whoever produced it
          if kv.1 = NO_ENTRY ∨ kv.2 = NO_ENTRY then (m, .pop (bucket + T))
          else (m, .read bucket kv)
      else some (m, .done)
  | .read bucket kv =>
      some ({ m with migrateBuf := Function.update m.migrateBuf t (mixBufferRead m.nvm kv.2) },
        .stage bucket kv)
  | .stage bucket kv =>
      some (m.ssdWriteStage (fun _ => m.migrateBuf t) 1 MIGRATE_STAGING_SLOT, .flush bucket kv)
  | .flush bucket kv => some (m.ssdWriteFlush 1 kv.1 MIGRATE_STAGING_SLOT, .clear bucket kv)
  | .clear bucket kv => some ({ m with nvm := mixBufferClear m.nvm kv.2 }, .count bucket kv)
  | .count bucket _ =>
      let seg := m.segment idx
      some (m.setSegment idx { seg with usedBlockNum := seg.usedBlockNum - 1 }, .pop bucket)
  | .done => none

/-- Thread `t` takes its next action. -/
def migrateStep {T : Nat} (idx : SegIdx) (s : MigrateState T) (t : Fin T) :
    Option (MigrateState T) :=
  (migrateAction idx t s.m (s.pc t)).map fun next =>
    { m := next.1, pc := Function.update s.pc t next.2 }

/-- `mix_segment_migration_begin`: every thread starts at the bucket of its index. -/
def migrationStart (m : Machine) (T : Nat) : MigrateState T :=
  { m := m, pc := fun t => .pop t }

/-- `mix_segment_migration_end`, once all threads are counted. -/
def migrationEnd (m : Machine) (idx : SegIdx) : Machine :=
  let seg := m.segment idx
  m.setSegment idx { seg with bitmap := mixBitmapClear seg.bitmap }

/-- `mix_migrate_segment` when the threads interleave as `sched` says; `none` when
`sched` is not an interleaving that brings all of them to their end. -/
def mixMigrateSegment (m : Machine) (idx : SegIdx) (sched : List (Fin MIGRATE_THREAD_NUM)) :
    Option Machine :=
  (exec (migrateStep idx) (migrationStart m MIGRATE_THREAD_NUM) sched).bind fun s =>
    if ∀ t, s.pc t = .done then some (migrationEnd s.m idx) else none

end Mixdk
