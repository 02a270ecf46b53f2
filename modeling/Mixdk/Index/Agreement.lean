/-
# Index.Agreement -- the volatile index and the records in the NVM

A buffer record that is valid names a block; the index should have that block in
that slot, and conversely (`Agreement`).  This holds in every state of every history
whose steps meet `AgreeGuard` (`agreement`): small writes get a safe slot, only
segment 0 is migrated with something in it, and `mix_segments_clear` is called on
an empty buffer only.  Any other step breaks it (`unguarded_disagrees`).
-/
import Mixdk.Index.Restart

namespace Mixdk

open Transition

set_option autoImplicit false

/-- The record of buffer block `b` is valid and names block `k`. -/
def RecordNames (n : NvmBuffer) (b k : Nat) : Prop :=
  (mixBufferGetMeta n b).valid = true ∧ (mixBufferGetMeta n b).offset = k

/-- Records and index agree. -/
def Agreement (m : Machine) : Prop :=
  ∀ (idx : SegIdx) (v k : Nat), v < m.md.perBlockNum →
    (RecordNames m.nvm (m.md.bufferBlock idx v) k ↔
      mixHashGet (m.segment idx).hash k = v ∧ mixBitmapTestBit (m.segment idx).bitmap v = true)

/-- The steps that keep them in agreement. -/
def AgreeGuard (m : Machine) : Operation → Prop
  | .task idx _ task _ => opCode task = MIX_WRITE → task.len ≤ WRITE_THRESHOLD →
      mixBufferBlockTest m.md task.offset idx ≠ -1 ∨
        if (m.segment idx).usedBlockNum = m.md.perBlockNum then idx.val = 0
        else AllocSafe (m.segment idx).bitmap idx
  | .migrate idx _ => idx.val = 0 ∨ (m.segment idx).hash.entries = []
  | .segmentsClear => ∀ idx, (m.segment idx).hash.entries = []

instance (m : Machine) : DecidablePred (AgreeGuard m)
  | .task .. => inferInstanceAs (Decidable (_ → _ → _))
  | .migrate .. => inferInstanceAs (Decidable (_ ∨ _))
  | .segmentsClear => Nat.decidableForallFin fun idx => (m.segment idx).hash.entries = []

section

variable {md md' : Metadata} {n n' : NvmBuffer} {idx : SegIdx} {m m' : Machine} {task : IoTask}
  {sched : List (Fin MIGRATE_THREAD_NUM)} {v k b : Nat}

/-! ## Records -/

theorem recordNames_write (n : NvmBuffer) (src : Block) (srcBlock dstBlock flags b k : Nat) :
    RecordNames (mixBufferWrite n src srcBlock dstBlock flags) b k ↔
      (b = dstBlock ∧ k = srcBlock) ∨ (b ≠ dstBlock ∧ RecordNames n b k) := by
  by_cases here : b = dstBlock
  · subst here
    simp only [RecordNames, mixBufferGetMeta, mixBufferWrite, Function.update_self, true_and, ne_eq,
      not_true_eq_false, false_and, or_false]
    exact ⟨fun names => names.2.symm, fun same => ⟨by simp [BufferMeta.valid], same.symm⟩⟩
  · simp [RecordNames, mixBufferGetMeta, mixBufferWrite, here]

/-- A record whose status was set to 0 where `hit` names nothing. -/
theorem recordNames_cleared {hit : Prop} [Decidable hit]
    (metas : n'.metas b = if hit then { n.metas b with status := 0 } else n.metas b) :
    RecordNames n' b k ↔ ¬ hit ∧ RecordNames n b k := by
  simp only [RecordNames, mixBufferGetMeta, metas]
  by_cases h : hit
  · simp [h, BufferMeta.valid]
  · simp [h]

/-- Records and entries agree: the form the steps keep. -/
def Recorded (md : Metadata) (n : NvmBuffer) : Prop :=
  ∀ (idx : SegIdx) (v k : Nat), v < md.perBlockNum →
    (RecordNames n (md.bufferBlock idx v) k ↔ (k, v) ∈ (md.segments idx).hash.entries)

theorem agreement_iff (all : AllIndexed m.md) : Agreement m ↔ Recorded m.md m.nvm := by
  have same : ∀ (idx : SegIdx) (k v : Nat), (mixHashGet (m.segment idx).hash k = v ∧
      mixBitmapTestBit (m.segment idx).bitmap v = true) ↔
        (k, v) ∈ (m.md.segments idx).hash.entries := by
    intro idx k v
    have ok : Indexed m.md.perBlockNum (m.segment idx) := all idx
    rw [← (all idx).find?_eq_some_iff]
    cases found : (m.segment idx).hash.find? k with
    | none =>
        have get : mixHashGet (m.segment idx).hash k = -1 := by rw [mixHashGet_eq, found]
        rw [get]
        refine iff_of_false (fun h => by omega) fun some_ => ?_
        exact absurd (found.symm.trans some_) (by simp)
    | some w =>
        rw [(ok.value found).1]
        constructor
        · rintro ⟨same, -⟩
          rw [← Int.ofNat.inj same]
          exact found
        · intro there
          obtain rfl := Option.some.inj (found.symm.trans there)
          exact ⟨rfl, ok.slot_set (k, w) (ok.find?_eq_some_iff.1 found)⟩
  simp only [Agreement, Recorded, same]

/-! ## Steps -/

/-- A written slot, entered. -/
theorem Recorded.write (recorded : Recorded md n) {src : Block} {flags : Nat}
    (perBlockNum : md'.perBlockNum = md.perBlockNum) (inside : v < md.perBlockNum)
    (entries : ∀ (j : SegIdx) (w k : Nat), (k, w) ∈ (md'.segments j).hash.entries ↔
      (j = idx ∧ w = v ∧ k = b) ∨ (¬ (j = idx ∧ w = v) ∧ (k, w) ∈ (md.segments j).hash.entries)) :
    Recorded md' (mixBufferWrite n src b (md.bufferBlock idx v) flags) := by
  intro j w k below
  rw [perBlockNum] at below
  have block := Metadata.bufferBlock_congr perBlockNum j w
  have same : md.bufferBlock j w = md.bufferBlock idx v ↔ j = idx ∧ w = v :=
    ⟨bufferBlock_inj below inside, fun ⟨h, h'⟩ => by rw [h, h']⟩
  rw [block, recordNames_write, entries, same, Ne, same, recorded j w k below, and_assoc]

/-- The entries after a small write that is entered. -/
theorem SmallWrite.entries_iff (all : AllIndexed md) (inRange : InRange task) {ret : Nat}
    (outcome : SmallWrite md task idx (.done md' (bufferWrite md task idx v) ret))
    (some_ : (md.segments idx).hash.find? task.offset ≠ none ∨
      AllocSafe (md.segments idx).bitmap idx) (j : SegIdx) (w k : Nat) :
    (k, w) ∈ (md'.segments j).hash.entries ↔
      (j = idx ∧ w = v ∧ k = task.offset) ∨
        (¬ (j = idx ∧ w = v) ∧ (k, w) ∈ (md.segments j).hash.entries) := by
  have key : task.offset < NO_ENTRY := inRange.key
  rcases outcome.done_cases with ⟨found, rfl⟩ | ⟨absent, -, first, ⟨-, rfl⟩ | ⟨notSafe, -⟩⟩
  · -- the slot held the block already, and no other
    by_cases at_ : j = idx ∧ w = v
    · obtain ⟨rfl, rfl⟩ := at_
      simp only [true_and, and_self, not_true_eq_false, false_and, or_false,
        ← (all j).find?_eq_some_iff]
      exact ⟨fun there => (all j).slot_inj there found, fun e => e ▸ found⟩
    · simp only [at_, not_false_eq_true, true_and, ← and_assoc, false_and, false_or]
  · by_cases same : j = idx
    · subst same
      rw [Metadata.setSegment_self, ← ((all j).entered absent key first).find?_eq_some_iff,
        (all j).find?_entered absent key first, (all j).find?_eq_some_iff]
      have free : w = v → (k, w) ∉ (md.segments j).hash.entries := fun e member =>
        (all j).unused first.clear (List.mem_map.2 ⟨_, member, e⟩)
      tauto
    · rw [Metadata.setSegment_of_ne md _ same]
      simp [same]
  · exact absurd some_ (by simp [absent, notSafe])

/-- The blocks of a large write. -/
theorem Recorded.clears (all : AllIndexed md) (recorded : Recorded md n) {offset count : Nat}
    {removed : List MixKv} (cleared : Cleared idx offset count md md' removed) :
    Recorded md' ((removed.map fun kv => md.bufferBlock idx kv.2).foldl mixBufferClear n) := by
  intro j w k below
  rw [cleared.perBlockNum] at below
  have block := Metadata.bufferBlock_congr cleared.perBlockNum j w
  rw [block, recordNames_cleared (clears_metas _ n _), recorded j w k below]
  have members := fun kv => cleared.entries.mem_iff (a := kv)
  simp only [List.mem_append] at members
  have hit : md.bufferBlock j w ∈ removed.map (fun kv => md.bufferBlock idx kv.2) ↔
      j = idx ∧ ∃ kv ∈ removed, kv.2 = w := by
    rw [List.mem_map]
    constructor
    · rintro ⟨kv, member, same⟩
      have slot := ((all idx).slot_small ((members kv).2 (Or.inl member))).1
      obtain ⟨h, h'⟩ := bufferBlock_inj slot below same
      exact ⟨h.symm, kv, member, h'⟩
    · rintro ⟨rfl, kv, member, rfl⟩
      exact ⟨kv, member, rfl⟩
  rw [hit]
  by_cases same : j = idx
  · subst same
    have slots := (cleared.entries.map Prod.snd).nodup_iff.1 (all j).slots
    rw [List.map_append, List.nodup_append] at slots
    simp only [true_and]
    constructor
    · rintro ⟨kept, member⟩
      exact ((members (k, w)).1 member).resolve_left fun gone => kept ⟨_, gone, rfl⟩
    · intro member
      refine ⟨fun ⟨kv, gone, same⟩ => ?_, (members (k, w)).2 (Or.inr member)⟩
      exact slots.2.2 w (List.mem_map.2 ⟨kv, gone, same⟩) w
        (List.mem_map.2 ⟨_, member, rfl⟩) rfl
  · rw [cleared.segments j same]
    simp [same]

/-- The records after a migration of segment `idx`. -/
theorem Migrated.recordNames (done : Migrated idx m m') (b k : Nat) :
    RecordNames m'.nvm b k ↔
      ¬ (∃ kv ∈ (m.segment idx).hash.entries, kv.2 = b) ∧ RecordNames m.nvm b k :=
  recordNames_cleared (done.metas b)

theorem Recorded.migrated (all : AllIndexed m.md) (recorded : Recorded m.md m.nvm)
    (done : Migrated idx m m') (guarded : idx.val = 0 ∨ (m.segment idx).hash.entries = []) :
    Recorded m'.md m'.nvm := by
  intro j w k below
  rw [done.perBlockNum] at below
  have block := Metadata.bufferBlock_congr done.perBlockNum j w
  rw [block, done.recordNames, recorded j w k below]
  by_cases same : j = idx
  · subst same
    rw [show (m'.md.segments j).hash.entries = [] from done.entries]
    refine iff_of_false (fun ⟨kept, member⟩ => ?_) List.not_mem_nil
    rcases guarded with first | empty
    · exact kept ⟨(k, w), member, by rw [bufferBlock_first m.md first]⟩
    · rw [show (m.md.segments j).hash.entries = [] from empty] at member
      cases member
  · rw [show m'.md.segments j = m.md.segments j from done.segments j same]
    refine and_iff_right fun ⟨kv, member, hit⟩ => ?_
    rcases guarded with first | empty
    · rw [← bufferBlock_first m.md first kv.2] at hit
      exact same (bufferBlock_inj ((all idx).slot_small member).1 below hit).1.symm
    · rw [empty] at member
      cases member

theorem Recorded.segmentsClear (empty : ∀ idx, (md.segments idx).hash.entries = []) :
    Recorded md (mixSegmentsClear md n) := by
  intro j w k below
  rw [empty j]
  refine iff_of_false (fun names => ?_) List.not_mem_nil
  rw [RecordNames, mixBufferGetMeta, mixSegmentsClear, clearSegments_invalid md n j below] at names
  exact absurd names.1 (by decide)

theorem TaskEffect.recorded (mem : Mem) (all : AllIndexed m.md) (inRange : InRange task)
    (recorded : Recorded m.md m.nvm) (guarded : AgreeGuard m (.task idx mem task sched))
    (effect : TaskEffect idx task sched m m') : Recorded m'.md m'.nvm := by
  have key : u32 task.offset = task.offset := u32_key inRange.key
  have known : mixBufferBlockTest m.md task.offset idx ≠ -1 ↔
      (m.md.segments idx).hash.find? task.offset ≠ none := by
    rw [Ne, (all idx).test_eq_neg_one_iff, key]
  cases effect with
  | other _ md nvm => rw [md, nvm]; exact recorded
  | large _ _ cleared nvm => rw [nvm]; exact recorded.clears all cleared
  | @small op len v outcome nvm =>
      rw [nvm]
      refine recorded.write (outcome.allIndexed all inRange).2 (outcome.slot_lt all)
        (outcome.entries_iff all inRange ?_)
      by_cases absent : (m.md.segments idx).hash.find? task.offset = none
      · have slot := (guarded op len).resolve_left fun found => known.1 found absent
        rw [if_neg (show ¬ (m.segment idx).usedBlockNum = m.md.perBlockNum from
          outcome.room absent)] at slot
        exact Or.inr slot
      · exact Or.inl absent
  | @migrating op len full between ran v outcome nvm =>
      have done := Mixdk.migrated (all idx).drainable ran
      have first : idx.val = 0 := by
        cases full with
        | full absent used =>
            have := (guarded op len).resolve_left fun found => known.1 found absent
            rwa [if_pos (show (m.segment idx).usedBlockNum = m.md.perBlockNum from used)] at this
      have all' := all.migrated done
      rw [nvm, ← Metadata.bufferBlock_congr done.perBlockNum idx v]
      exact (recorded.migrated all done (Or.inl first)).write (outcome.allIndexed all' inRange).2
        (outcome.slot_lt all') (outcome.entries_iff all' inRange (Or.inr done.allocSafe))

/-- What guarded histories keep. -/
structure Agreeing (m : Machine) : Prop where
  running : Running 1024 m
  recorded : Recorded m.md m.nvm

theorem Agreeing.operate (agreeing : Agreeing m) {op : Operation} (guarded : AgreeGuard m op)
    (stepped : m.operate op = some m') : Agreeing m' := by
  obtain ⟨running, recorded⟩ := agreeing
  have all := running.all
  refine ⟨running.operate (by decide) stepped, ?_⟩
  cases op with
  | task idx mem task sched =>
      simp only [Machine.operate] at stepped
      split at stepped
      · rename_i inRange
        have effect := runTask_effect (m := { m with mem := mem }) all inRange
          (by rw [running.perBlockNum]; decide) stepped
        exact TaskEffect.recorded (m := { m with mem := mem }) mem all inRange recorded
          guarded effect
      · cases stepped
  | migrate idx sched => exact recorded.migrated all (migrated (all idx).drainable stepped) guarded
  | segmentsClear =>
      cases stepped
      exact .segmentsClear guarded

theorem Started.agreeing {image : NvmBuffer} (began : Started image m) : Agreeing m where
  running := began.running
  recorded := by
    have cleared := Recorded.segmentsClear (n := image)
      (mixMetadataInit_entries BUFFER_BLOCK_NUM)
    rw [mixSegmentsClear] at cleared
    rw [began.md, began.nvm, mixInitScheduler_eq]
    simp only [cleared]

/-- **In every guarded history the records and the index agree.** -/
theorem agreement {image : NvmBuffer} {start : Machine} (began : Started image start)
    {ops : List Operation} (run : Run Machine.operate AgreeGuard start ops m) : Agreement m := by
  have kept := run.invariant (fun _ _ _ inv guarded stepped => inv.operate guarded stepped)
    began.agreeing
  exact (agreement_iff kept.running.all).2 kept.recorded

/-! ## Steps that break it -/

/-- Outside segment 0 a migration leaves the records valid. -/
theorem Migrated.stillNames (all : AllIndexed m.md) (recorded : Recorded m.md m.nvm)
    (done : Migrated idx m m') (later : idx.val ≠ 0) {kv : MixKv}
    (entry : kv ∈ (m.segment idx).hash.entries) :
    RecordNames m'.nvm (m.md.bufferBlock idx kv.2) kv.1 := by
  have slot := ((all idx).slot_small entry).1
  refine (done.recordNames _ _).2 ⟨fun ⟨kv', entry', same⟩ => later ?_,
    (recorded idx kv.2 kv.1 slot).2 entry⟩
  rw [← bufferBlock_zero m.md kv'.2] at same
  rw [← (bufferBlock_inj ((all idx).slot_small entry').1 slot same).1]
  rfl

/-- Two entries have different slots. -/
theorem Indexed.exists_other_slot {P : Nat} {seg : Segment} (ok : Indexed P seg)
    (two : 2 ≤ seg.hash.entries.length) (v : Nat) : ∃ kv ∈ seg.hash.entries, kv.2 ≠ v := by
  have slots := ok.slots
  match all : seg.hash.entries with
  | [] => rw [all] at two; simp at two
  | [a] => rw [all] at two; simp at two
  | a :: b :: rest =>
      rw [all, List.map_cons, List.map_cons, List.nodup_cons, List.mem_cons, not_or] at slots
      by_cases first : a.2 = v
      · exact ⟨b, by simp, fun e => slots.1.1 (first.trans e.symm)⟩
      · exact ⟨a, by simp, first⟩

/-- A small write that is not guarded. -/
theorem TaskEffect.disagrees (mem : Mem) (all : AllIndexed m.md) (inRange : InRange task)
    (size : m.md.perBlockNum = 1024) (recorded : Recorded m.md m.nvm)
    (unguarded : ¬ AgreeGuard m (.task idx mem task sched))
    (effect : TaskEffect idx task sched m m') : ¬ Recorded m'.md m'.nvm := by
  have key : u32 task.offset = task.offset := u32_key inRange.key
  simp only [AgreeGuard, not_forall, not_or, not_not,
    (all idx).test_eq_neg_one_iff, key] at unguarded
  obtain ⟨op, len, absent, slot⟩ := unguarded
  intro after
  cases effect with
  | other other => exact other op
  | large _ large => exact absurd len (by omega)
  | @small _ _ v outcome nvm =>
      rw [if_neg (show ¬ (m.segment idx).usedBlockNum = m.md.perBlockNum from
        outcome.room absent)] at slot
      have inside := outcome.slot_lt all
      obtain ⟨all', perBlockNum⟩ := outcome.allIndexed all inRange
      -- the record names the block, the index does not have it
      have names := (after idx v task.offset (perBlockNum ▸ inside)).1 (by
        rw [nvm, Metadata.bufferBlock_congr perBlockNum]
        exact (recordNames_write ..).2 (Or.inl ⟨rfl, rfl⟩))
      rw [← (all' idx).find?_eq_some_iff, outcome.lost absent slot] at names
      cases names
  | @migrating _ _ full between ran v outcome nvm =>
      have done := Mixdk.migrated (all idx).drainable ran
      have used : (m.md.segments idx).usedBlockNum = m.md.perBlockNum := by
        cases full with
        | full _ used => exact used
      rw [if_pos (show (m.segment idx).usedBlockNum = m.md.perBlockNum from used)] at slot
      have all₁ := all.migrated done
      have inside := outcome.slot_lt all₁
      obtain ⟨all', perBlockNum⟩ := outcome.allIndexed all₁ inRange
      -- another entry's record is valid still, and the index is empty but for this block
      obtain ⟨kv, entry, other⟩ := (all idx).exists_other_slot
        (by have := (all idx).used; omega) v
      have names := done.stillNames all recorded slot entry
      have below := ((all idx).slot_small entry).1
      have blocks : m.md.bufferBlock idx kv.2 ≠ m.md.bufferBlock idx v := fun same =>
        other (bufferBlock_inj below (done.perBlockNum ▸ inside) same).2
      have member := (after idx kv.2 kv.1 (by rw [perBlockNum, done.perBlockNum]; exact below)).1
        (by
          rw [nvm, Metadata.bufferBlock_congr perBlockNum, Metadata.bufferBlock_congr done.perBlockNum]
          exact (recordNames_write ..).2 (Or.inr ⟨blocks, names⟩))
      rw [outcome.entries_iff all₁ inRange (Or.inr done.allocSafe),
        show (between.md.segments idx).hash.entries = [] from done.entries] at member
      simp [other] at member

/-- The guard is exact: any other step leaves records and index in disagreement. -/
theorem unguarded_disagrees (agreeing : Agreeing m) {op : Operation}
    (unguarded : ¬ AgreeGuard m op) (stepped : m.operate op = some m') : ¬ Agreement m' := by
  obtain ⟨running, recorded⟩ := agreeing
  have all := running.all
  rw [agreement_iff (running.operate (by decide) stepped).all]
  cases op with
  | task idx mem task sched =>
      simp only [Machine.operate] at stepped
      split at stepped
      · rename_i inRange
        have effect := runTask_effect (m := { m with mem := mem }) all inRange
          (by rw [running.perBlockNum]; decide) stepped
        exact TaskEffect.disagrees (m := { m with mem := mem }) mem all inRange
          running.perBlockNum recorded unguarded effect
      · cases stepped
  | migrate idx sched =>
      have done := Mixdk.migrated (all idx).drainable stepped
      simp only [AgreeGuard, not_or] at unguarded
      obtain ⟨kv, entry⟩ := List.exists_mem_of_ne_nil _ unguarded.2
      intro after
      have slot := ((all idx).slot_small entry).1
      have member := (after idx kv.2 kv.1 (done.perBlockNum ▸ slot)).1 (by
        rw [Metadata.bufferBlock_congr done.perBlockNum]
        exact done.stillNames all recorded unguarded.1 entry)
      rw [show (m'.md.segments idx).hash.entries = [] from done.entries] at member
      cases member
  | segmentsClear =>
      cases stepped
      simp only [AgreeGuard, not_forall] at unguarded
      obtain ⟨idx, nonempty⟩ := unguarded
      obtain ⟨kv, entry⟩ := List.exists_mem_of_ne_nil _ nonempty
      have slot := ((all idx).slot_small entry).1
      intro after
      have names := (after idx kv.2 kv.1 slot).2 entry
      exact absurd (names.1.symm.trans (clearSegments_invalid m.md m.nvm idx slot)) (by decide)

end

/-! ## The index outlives its records -/

/-- A write of block 5, and then `mix_segments_clear`. -/
theorem segmentsClear_disagrees : ∃ m, exec Machine.operate freshStart
    [.task 1 (fun _ => 0) (writeTask 5 1) [], .segmentsClear] = some m ∧ ¬ Agreement m := by
  have run : (exec Machine.operate freshStart [.task 1 (fun _ => 0) (writeTask 5 1) []]).map
      (fun m => (m.md.perBlockNum, mixHashGet (m.segment 1).hash 5,
        mixBitmapTestBit (m.segment 1).bitmap 0)) = some (1024, 0, true) := by
    rw [freshStart, mixInitScheduler_eq]
    decide +kernel
  obtain ⟨m, ran, found⟩ := Option.map_eq_some_iff.1 run
  simp only [Prod.mk.injEq] at found
  refine ⟨{ m with nvm := mixSegmentsClear m.md m.nvm }, ?_, fun agree => ?_⟩
  · obtain ⟨t, stepped, ended⟩ := exec_cons_eq_some.1 ran
    cases ended
    exact exec_cons_eq_some.2 ⟨m, stepped, rfl⟩
  · have names := (agree 1 0 5 (by rw [found.1]; decide)).2 found.2
    have invalid := clearSegments_invalid m.md m.nvm 1 (v := 0) (by rw [found.1]; decide)
    exact absurd (names.1.symm.trans invalid) (by decide)

/-- Writes into a fresh buffer and a large one that clears one of them leave them in agreement. -/
theorem severalWrites_agree : ∃ m, Run Machine.operate AgreeGuard freshStart (severalWrites 1) m ∧
    Agreement m := by
  have returns : (exec (fun m op => if decide (AgreeGuard m op) then m.operate op else none)
      freshStart (severalWrites 1)).isSome = true := by
    rw [freshStart, mixInitScheduler_eq]
    decide +kernel
  obtain ⟨m, ran⟩ := Option.isSome_iff_exists.1 returns
  have run := Run.of_checked (fun _ _ => of_decide_eq_true) ran
  exact ⟨m, run, agreement freshStart_started run⟩

end Mixdk
