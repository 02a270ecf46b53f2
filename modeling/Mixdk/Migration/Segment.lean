/-
# Migration.Segment -- the effect of mix_migrate_segment

`migrated` is the effect that all interleavings have in common, `migrated_data` the
content that reaches the SSD when no thread stages over another.

Then the migration as it ought to be: `MovesExactly` says that every buffered block,
and nothing else, has moved to the SSD.  `migration_correct_iff` says for which
segments it does so in every interleaving: the entries of different threads must not
differ, and a segment other than the first must have nothing to lose, because the
threads use a slot as a buffer block number and so read and invalidate in segment 0.
-/
import Mixdk.Migration.Alone

namespace Mixdk

open scoped List
open Transition

set_option autoImplicit false

/-- What has become of machine `m` when segment `idx` has been migrated. -/
structure Migrated (idx : SegIdx) (m m' : Machine) : Prop where
  size : (m'.segment idx).hash.hashSize = (m.segment idx).hash.hashSize
  chains : ∀ i < (m.segment idx).hash.hashSize, (m'.segment idx).hash.chain i = [] ∧
    ((m'.segment idx).hash.hashNodes i).len = 0
  bitmap : (m'.segment idx).bitmap = mixBitmapClear (m.segment idx).bitmap
  used : (m'.segment idx).usedBlockNum =
    (m.segment idx).usedBlockNum - (m.segment idx).hash.entries.length
  metas : ∀ b, m'.nvm.metas b = if ∃ kv ∈ (m.segment idx).hash.entries, kv.2 = b
    then { m.nvm.metas b with status := 0 } else m.nvm.metas b
  ssd : ∀ b, b ∉ (m.segment idx).hash.entries.map Prod.fst → m'.ssd b = m.ssd b
  perBlockNum : m'.md.perBlockNum = m.md.perBlockNum
  segments : ∀ j ≠ idx, m'.segment j = m.segment j
  data : m'.nvm.data = m.nvm.data
  mem : m'.mem = m.mem
  ret : m'.ret = m.ret
  completedNvm : m'.completedNvmWriteBlockNum = m.completedNvmWriteBlockNum
  completedSsd : m'.completedSsdWriteBlockNum = m.completedSsdWriteBlockNum

theorem mixMigrateSegment_eq_some {m m' : Machine} {idx : SegIdx}
    {sched : List (Fin MIGRATE_THREAD_NUM)} : mixMigrateSegment m idx sched = some m' ↔
      ∃ s, exec (migrateStep idx) (migrationStart m MIGRATE_THREAD_NUM) sched = some s ∧
        (∀ t, s.pc t = .done) ∧ migrationEnd s.m idx = m' := by
  simp only [mixMigrateSegment, Option.bind_eq_some_iff, Option.ite_none_right_eq_some,
    Option.some.injEq]

section

variable {m m' : Machine} {idx : SegIdx} {sched : List (Fin MIGRATE_THREAD_NUM)}

/-- A drain that has come to its end has emptied the segment. -/
theorem migrated_of_done {s : MigrateState MIGRATE_THREAD_NUM} {fin : List MixKv}
    (drained : Drained idx m s fin) (ends : ∀ t, s.pc t = .done) :
    Migrated idx m (migrationEnd s.m idx) := by
  have pos : 0 < MIGRATE_THREAD_NUM := by decide
  have all := drained.finished pos ends
  have empty : ∀ i < (m.segment idx).hash.hashSize, (s.m.segment idx).hash.chain i = [] :=
    fun i below => drained.chain_nil pos ends below
  refine ⟨?_, fun i below => ?_, ?_, ?_, fun b => ?_, drained.ssd, drained.same.perBlockNum, ?_,
    drained.same.data, drained.same.mem, drained.same.ret, drained.same.completedNvm,
    drained.same.completedSsd⟩
  · rw [migrationEnd, Machine.segment_setSegment, drained.size]
  · rw [migrationEnd, Machine.segment_setSegment]
    refine ⟨empty i below, Int32.toInt_inj.1 ?_⟩
    rw [drained.lens i below, empty i below]
    rfl
  · rw [migrationEnd, Machine.segment_setSegment, drained.same.bitmap]
  · rw [migrationEnd, Machine.segment_setSegment, all.length_eq]
    exact drained.used
  · have metas := drained.metas b
    rw [overThreads_done rfl ends, List.append_nil] at metas
    simp only [all.mem_iff]
    exact metas
  · intro j ne
    rw [← drained.same.segments j ne]
    exact Metadata.setSegment_of_ne s.m.md _ ne

/-- **What every interleaving of a migration does.** -/
theorem migrated (ok : Drainable (m.segment idx).hash)
    (ran : mixMigrateSegment m idx sched = some m') : Migrated idx m m' := by
  obtain ⟨s, drain, ends, rfl⟩ := mixMigrateSegment_eq_some.1 ran
  obtain ⟨fin, drained⟩ := drained_of_exec ok.lens ok.proper drain
  exact migrated_of_done drained ends

theorem Migrated.entries (done : Migrated idx m m') : (m'.segment idx).hash.entries = [] := by
  refine List.eq_nil_iff_forall_not_mem.2 fun kv there => ?_
  obtain ⟨i, below, member⟩ := ChainTable.mem_pairs.1 there
  rw [(done.chains i (done.size ▸ below)).1] at member
  cases member

/-- The emptied table is a sound one. -/
theorem Migrated.sound (done : Migrated idx m m') (pos : 0 < (m.segment idx).hash.hashSize) :
    (m'.segment idx).hash.Sound where
  size := done.size.symm ▸ pos
  placed := fun i below kv member => by
    rw [(done.chains i (done.size ▸ below)).1] at member
    cases member
  lens := fun i below => by
    have at_ := done.chains i (done.size ▸ below)
    rw [at_.1, at_.2]
    rfl

/-! ## The data -/

/-- No thread stages a different block between another's staging and its write. -/
def StagesApart (m : Machine) (idx : SegIdx) (sched : List (Fin MIGRATE_THREAD_NUM)) : Prop :=
  ∃ s, Run (migrateStep idx) Apart (migrationStart m MIGRATE_THREAD_NUM) sched s

/-- With every thread at its end, no pair is left to write. -/
theorem pending_done {T : Nat} {s : MigrateState T} (drained : Draining idx m s) (pos : 0 < T)
    (ends : ∀ t, s.pc t = .done) : pending idx s = [] := by
  obtain ⟨⟨fin, inv⟩, -⟩ := drained
  rw [pending, overThreads_done rfl ends, inv.entries_nil pos ends, List.nil_append]

/-- The SSD gets each entry's block, from the buffer block with the number of its slot. -/
theorem migrated_data (ok : Drainable (m.segment idx).hash)
    (ran : mixMigrateSegment m idx sched = some m') (apart : StagesApart m idx sched) :
    ∀ kv ∈ (m.segment idx).hash.entries, m'.ssd kv.1 = m.nvm.data kv.2 := by
  obtain ⟨s, drain, ends, rfl⟩ := mixMigrateSegment_eq_some.1 ran
  obtain ⟨s', run⟩ := apart
  have same := run.exec.symm.trans drain
  cases same
  have held := run.invariant (I := fun r => Draining idx m r ∧ Staged idx m r)
    (fun r t r' inv met stepped => ⟨inv.1.step ok stepped,
      inv.2.step ok.proper ok.distinct inv.1.accounted met stepped⟩)
    ⟨.start m ok, .start m⟩
  intro kv entry
  refine held.2.written kv entry ?_
  rw [pending_done held.1 (by decide) ends]
  exact List.not_mem_nil

end

/-! ## Migration as it ought to be -/

/-- The index of a segment as the writes build it: distinct blocks, distinct slots inside the
segment, bucket lengths and slot counter in step. -/
structure Migratable (m : Machine) (idx : SegIdx) : Prop where
  /-- `block_num` is a `uint32_t`. -/
  perBlockNum : m.md.perBlockNum ≤ (2 ^ 32 - 1) / SEGMENT_NUM
  keys : ((m.segment idx).hash.entries.map Prod.fst).Nodup
  slots : ((m.segment idx).hash.entries.map Prod.snd).Nodup
  key_lt : ∀ kv ∈ (m.segment idx).hash.entries, kv.1 < NO_ENTRY
  slot_lt : ∀ kv ∈ (m.segment idx).hash.entries, kv.2 < m.md.perBlockNum
  lens : ∀ i < (m.segment idx).hash.hashSize,
    ((m.segment idx).hash.hashNodes i).len.toInt = ((m.segment idx).hash.chain i).length
  used : (m.segment idx).usedBlockNum = (m.segment idx).hash.entries.length

/-- Every buffered block of segment `idx` has moved to the SSD, and nothing else has. -/
structure MovesExactly (idx : SegIdx) (m m' : Machine) : Prop where
  moved : ∀ kv ∈ (m.segment idx).hash.entries,
    m'.ssd kv.1 = m.nvm.data (m.md.bufferBlock idx kv.2)
  unmoved : ∀ b, b ∉ (m.segment idx).hash.entries.map Prod.fst → m'.ssd b = m.ssd b
  cleared : ∀ kv ∈ (m.segment idx).hash.entries,
    (m'.nvm.metas (m.md.bufferBlock idx kv.2)).status = 0
  records : ∀ j ≠ idx, ∀ v < m.md.perBlockNum,
    m'.nvm.metas (m.md.bufferBlock j v) = m.nvm.metas (m.md.bufferBlock j v)
  segments : ∀ j ≠ idx, m'.segment j = m.segment j
  entries : (m'.segment idx).hash.entries = []
  bitmap : ∀ i < (m'.segment idx).bitmap.bits,
    mixBitmapTestBit (m'.segment idx).bitmap i = false
  used : (m'.segment idx).usedBlockNum = 0

/-- The migration comes to its end, and does the right thing in every interleaving. -/
def MigrationCorrect (m : Machine) (idx : SegIdx) : Prop :=
  (∃ sched m', mixMigrateSegment m idx sched = some m') ∧
    ∀ sched m', mixMigrateSegment m idx sched = some m' → MovesExactly idx m m'

/-- Which states of a segment migrate correctly. -/
structure MovesWhole (m : Machine) (idx : SegIdx) : Prop where
  /-- In segments 1 to 3, the block in the slot is also in segment 0, and neither has a valid
  record. -/
  base : idx ≠ 0 → ∀ kv ∈ (m.segment idx).hash.entries,
    m.nvm.data kv.2 = m.nvm.data (m.md.bufferBlock idx kv.2) ∧ (m.nvm.metas kv.2).status = 0 ∧
      (m.nvm.metas (m.md.bufferBlock idx kv.2)).status = 0
  /-- Entries in buckets of different threads hold the same data. -/
  overlap : ∀ i < (m.segment idx).hash.hashSize, ∀ j < (m.segment idx).hash.hashSize,
    i % MIGRATE_THREAD_NUM ≠ j % MIGRATE_THREAD_NUM →
    ∀ kv ∈ (m.segment idx).hash.chain i, ∀ kv' ∈ (m.segment idx).hash.chain j,
      m.nvm.data (m.md.bufferBlock idx kv.2) = m.nvm.data (m.md.bufferBlock idx kv'.2)

section

variable {m m' : Machine} {idx : SegIdx} {sched : List (Fin MIGRATE_THREAD_NUM)}

theorem Migratable.drainable (ok : Migratable m idx) : Drainable (m.segment idx).hash where
  proper := fun kv entry => by
    have key := ok.key_lt kv entry
    have slot := ok.slot_lt kv entry
    have small := ok.perBlockNum
    simp only [NO_ENTRY, SEGMENT_NUM] at *
    omega
  distinct := ok.keys
  lens := ok.lens

theorem bufferBlock_zero (md : Metadata) (slot : Nat) : md.bufferBlock 0 slot = slot := by
  simp [Metadata.bufferBlock]

theorem bufferBlock_first (md : Metadata) {idx : SegIdx} (first : idx.val = 0) (slot : Nat) :
    md.bufferBlock idx slot = slot := by
  simp [Metadata.bufferBlock, first]

theorem bufferBlock_inj {md : Metadata} {i j : SegIdx} {v w : Nat} (inV : v < md.perBlockNum)
    (inW : w < md.perBlockNum) (same : md.bufferBlock i v = md.bufferBlock j w) :
    i = j ∧ v = w := by
  have pos : 0 < md.perBlockNum := by omega
  simp only [Metadata.bufferBlock] at same
  have quotient := congrArg (· / md.perBlockNum) same
  simp only [Nat.mul_comm _ md.perBlockNum, Nat.mul_add_div pos, Nat.div_eq_of_lt inV,
    Nat.div_eq_of_lt inW, Nat.add_zero] at quotient
  refine ⟨Fin.ext quotient, ?_⟩
  rw [quotient] at same
  omega

/-- The block a thread copies is the one in the slot. -/
theorem MovesWhole.data (whole : MovesWhole m idx) {kv : MixKv}
    (entry : kv ∈ (m.segment idx).hash.entries) :
    m.nvm.data kv.2 = m.nvm.data (m.md.bufferBlock idx kv.2) := by
  by_cases first : idx = 0
  · rw [first, bufferBlock_zero]
  · exact (whole.base first kv entry).1

/-- Entries of different threads with equal data keep every interleaving apart. -/
theorem MovesWhole.apart (ok : Migratable m idx) (whole : MovesWhole m idx)
    (ran : mixMigrateSegment m idx sched = some m') : StagesApart m idx sched := by
  obtain ⟨s, drain, -, -⟩ := mixMigrateSegment_eq_some.1 ran
  have meets : ∀ (r : MigrateState MIGRATE_THREAD_NUM) t,
      Draining idx m r ∧ Traced idx m r → Apart r t := by
    rintro r t ⟨⟨⟨fin, drained⟩, acc⟩, traced⟩ b kv at_ u c kv' at_'
    have inB := traced.held t b (by rw [at_]; rfl) kv (by rw [at_]; exact List.mem_singleton_self kv)
    have inC := traced.held u c (by rw [at_']; rfl) kv'
      (by rw [at_']; exact List.mem_singleton_self kv')
    have other : c % MIGRATE_THREAD_NUM ≠ b % MIGRATE_THREAD_NUM := by
      rw [(drained.walk t).1 b (by rw [at_]; rfl), (drained.walk u).1 c (by rw [at_']; rfl)]
      intro same
      rw [Fin.ext same, at_] at at_'
      cases at_'
    rw [acc.data, whole.data (ChainTable.mem_pairs.2 ⟨b, inB⟩),
      whole.data (ChainTable.mem_pairs.2 ⟨c, inC⟩)]
    exact whole.overlap c inC.1 b inB.1 other kv' inC.2 kv inB.2
  exact ⟨s, Run.of_exec
    (fun _ _ _ inv stepped => ⟨inv.1.step ok.drainable stepped, inv.2.step stepped⟩) meets drain
    ⟨.start m ok.drainable, .start m⟩⟩

/-- The records of a block of segment `j` after the migration of segment `idx`. -/
theorem Migrated.record (ok : Migratable m idx) (done : Migrated idx m m') {j : SegIdx} {v : Nat}
    (inside : v < m.md.perBlockNum) (kept : j = 0 → ∀ kv ∈ (m.segment idx).hash.entries, kv.2 ≠ v) :
    m'.nvm.metas (m.md.bufferBlock j v) = m.nvm.metas (m.md.bufferBlock j v) := by
  rw [done.metas, if_neg]
  rintro ⟨kv, entry, same⟩
  rw [← bufferBlock_zero m.md kv.2] at same
  obtain ⟨first, slot⟩ := bufferBlock_inj (ok.slot_lt kv entry) inside same
  exact kept first.symm kv entry slot

/-- The condition is enough. -/
theorem MovesWhole.movesExactly (ok : Migratable m idx) (whole : MovesWhole m idx)
    (ran : mixMigrateSegment m idx sched = some m') : MovesExactly idx m m' := by
  have done := migrated ok.drainable ran
  refine ⟨fun kv entry => ?_, done.ssd, fun kv entry => ?_, fun j other v inside => ?_,
    done.segments, done.entries, fun i usable => ?_, ?_⟩
  · rw [migrated_data ok.drainable ran (whole.apart ok ran) kv entry, whole.data entry]
  · by_cases first : idx = 0
    · rw [first, bufferBlock_zero, done.metas, if_pos ⟨kv, entry, rfl⟩]
    · rw [done.record ok (ok.slot_lt kv entry) fun e => absurd e first]
      exact (whole.base first kv entry).2.2
  · by_cases hit : ∃ kv ∈ (m.segment idx).hash.entries, kv.2 = m.md.bufferBlock j v
    · obtain ⟨kv, entry, same⟩ := hit
      have at_ : j = 0 := by
        rw [← bufferBlock_zero m.md kv.2] at same
        exact (bufferBlock_inj (ok.slot_lt kv entry) inside same).1.symm
      have valid := (whole.base (fun e => other (at_.trans e.symm)) kv entry).2.1
      rw [done.metas, if_pos ⟨kv, entry, same⟩, ← same, ← valid]
    · rw [done.metas, if_neg hit]
  · rw [done.bitmap] at usable ⊢
    exact testBit_clear _ (by rwa [clear_bits] at usable)
  · rw [done.used, ok.used]
    omega

/-- The condition is needed: it can be read off well-chosen interleavings. -/
theorem MovesWhole.of_correct (ok : Migratable m idx) (correct : MigrationCorrect m idx) :
    MovesWhole m idx := by
  obtain ⟨⟨sched, m', ran⟩, tight⟩ := correct
  have ended : ∀ {sched} {s : MigrateState MIGRATE_THREAD_NUM},
      exec (migrateStep idx) (migrationStart m MIGRATE_THREAD_NUM) sched = some s →
      (∀ u, s.pc u = .done) → MovesExactly idx m (migrationEnd s.m idx) :=
    fun drain ends => tight _ _ (mixMigrateSegment_eq_some.2 ⟨_, drain, ends, rfl⟩)
  have data : ∀ kv ∈ (m.segment idx).hash.entries,
      m.nvm.data kv.2 = m.nvm.data (m.md.bufferBlock idx kv.2) := by
    intro kv entry
    obtain ⟨_, s, drain, ends, clean⟩ :=
      exists_clean (T := MIGRATE_THREAD_NUM) ok.drainable (by decide) entry
    exact clean.symm.trans ((ended drain ends).moved kv entry)
  refine ⟨fun later kv entry => ⟨data kv entry, ?_, ?_⟩,
    fun i belowI j belowJ threads kv inI kv' inJ => ?_⟩
  · have kept := (tight sched m' ran).records 0 (Ne.symm later) kv.2 (ok.slot_lt kv entry)
    rw [bufferBlock_zero, (migrated ok.drainable ran).metas, if_pos ⟨kv, entry, rfl⟩] at kept
    rw [← kept]
  · have cleared := (tight sched m' ran).cleared kv entry
    rwa [(migrated ok.drainable ran).record ok (ok.slot_lt kv entry)
      fun e => absurd e later] at cleared
  · have entry : kv ∈ (m.segment idx).hash.entries := ChainTable.mem_pairs.2 ⟨i, belowI, inI⟩
    have entry' : kv' ∈ (m.segment idx).hash.entries := ChainTable.mem_pairs.2 ⟨j, belowJ, inJ⟩
    obtain ⟨_, s, drain, ends, mixed⟩ :=
      exists_overlap (T := MIGRATE_THREAD_NUM) ok.drainable (by decide) threads belowI inI belowJ inJ
    rw [← (ended drain ends).moved kv entry, ← data kv' entry']
    exact mixed

/-- **A segment migrates correctly exactly when it loses nothing by the slot numbers being
taken for block numbers and by the threads sharing one staging slot.** -/
theorem migration_correct_iff (ok : Migratable m idx) :
    MigrationCorrect m idx ↔ MovesWhole m idx := by
  refine ⟨MovesWhole.of_correct ok, fun whole => ⟨?_, fun sched m' ran => whole.movesExactly ok ran⟩⟩
  obtain ⟨sched, s, drain, -, ends⟩ := exists_end (T := MIGRATE_THREAD_NUM) ok.drainable
    (Draining.start m ok.drainable)
  exact ⟨sched, _, mixMigrateSegment_eq_some.2 ⟨s, drain, ends, rfl⟩⟩

end

/-! ## One buffered block in segment 1 -/

/-- Segment 1. -/
def secondSegment : SegIdx := ⟨1, by decide⟩

/-- Segment 1 with block 4 in its slot 0, next to an empty segment 0. -/
def oneBuffered : Machine :=
  .blank ((mixMetadataInit BUFFER_BLOCK_NUM).setSegment secondSegment
      { hash := mixHashPut (mixHashInit 100) 4 0
        bitmap := (mixBitmapSetBit (mixBitmapInit 1024) 0).2
        usedBlockNum := 1 })
    { data := fun b _ => if b = 1024 then 1 else 0
      metas := fun b => if b = 1024 then ⟨1, 0, 4, MIX_WRITE⟩ else ⟨0, 0, 0, 0⟩ }

theorem oneBuffered_entries : (oneBuffered.segment secondSegment).hash.entries = [(4, 0)] := by
  have put := (Hash.Sound.init (Nat.zero_lt_succ 99)).entries_put 4 0
  rw [entries_init] at put
  simp only [oneBuffered, Machine.blank, Machine.segment, Metadata.setSegment_self]
  exact List.perm_singleton.1 put

theorem oneBuffered_migratable : Migratable oneBuffered secondSegment where
  perBlockNum := by decide
  keys := by rw [oneBuffered_entries]; decide
  slots := by rw [oneBuffered_entries]; decide
  key_lt := by rw [oneBuffered_entries]; decide
  slot_lt := by rw [oneBuffered_entries]; decide
  lens := by
    simp only [oneBuffered, Machine.blank, Machine.segment, Metadata.setSegment_self]
    exact (Hash.Sound.one (by decide) 4 0).lens
  used := by rw [oneBuffered_entries]; rfl

/-- Its migration writes the block of segment 0's slot. -/
theorem oneBuffered_not_moved :
    Migratable oneBuffered secondSegment ∧ ¬ MigrationCorrect oneBuffered secondSegment := by
  refine ⟨oneBuffered_migratable, fun correct => ?_⟩
  have whole := MovesWhole.of_correct oneBuffered_migratable correct
  have same := (whole.base (by decide) (4, 0) (by rw [oneBuffered_entries]; decide)).1
  have byte := congrFun same ⟨0, by decide⟩
  revert byte
  decide

theorem oneBuffered_correct_iff :
    MigrationCorrect oneBuffered secondSegment ↔ MovesWhole oneBuffered secondSegment :=
  migration_correct_iff oneBuffered_migratable

end Mixdk
