/-
# EndToEnd.Elsewhere -- a migration and the workers of other segments

`mix_migrate_segment` blocks its own nvm_worker; the scheduler and the workers of the
other segments go on.  `Elsewhere` collects what it takes for an operation not to
disturb a migration: it commutes with every action of the migrate threads.  The
operations of another segment's workers do (`elsewhere_act`), and so a migration runs
on a machine they have changed as it runs on the machine before (`Elsewhere.migration`).

This holds for segment 0 alone.  The threads use slots as buffer block numbers and
stage in slot 0, so they stay inside the segment they migrate only there.
-/
import Mixdk.Async.Settle
import Mixdk.Index.Update

namespace Mixdk

open Transition Lanes Footprint

set_option autoImplicit false

/-! ## Operations that leave a migration alone -/

/-- `f` commutes with the actions of the threads that migrate segment `idx`. -/
structure Elsewhere (P : Nat) (idx : SegIdx) (f : Machine → Machine) : Prop where
  perBlockNum : ∀ m, (f m).md.perBlockNum = m.md.perBlockNum
  segment : ∀ m, (f m).segment idx = m.segment idx
  setSegment : ∀ m seg, f (m.setSegment idx seg) = (f m).setSegment idx seg
  data : ∀ m, ∀ b < P, (f m).nvm.data b = m.nvm.data b
  read : ∀ (t b : Nat), b < P → Function.Commute f fun m =>
    { m with migrateBuf := Function.update m.migrateBuf t (m.nvm.data b) }
  stage : ∀ t : Nat, Function.Commute f fun m =>
    m.ssdWriteStage (fun _ => m.migrateBuf t) 1 MIGRATE_STAGING_SLOT
  flush : ∀ k : Nat, segmentOf k = idx → Function.Commute f fun m =>
    m.ssdWriteFlush 1 k MIGRATE_STAGING_SLOT
  clear : ∀ b < P, Function.Commute f fun m => { m with nvm := mixBufferClear m.nvm b }

namespace Elsewhere

variable {P : Nat} {idx : SegIdx} {f g : Machine → Machine}

theorem id : Elsewhere P idx fun m => m :=
  ⟨fun _ => rfl, fun _ => rfl, fun _ _ => rfl, fun _ _ _ => rfl, fun _ _ _ _ => rfl,
    fun _ _ => rfl, fun _ _ _ => rfl, fun _ _ _ => rfl⟩

theorem comp (second : Elsewhere P idx g) (first : Elsewhere P idx f) :
    Elsewhere P idx fun m => g (f m) where
  perBlockNum := fun m => (second.perBlockNum _).trans (first.perBlockNum m)
  segment := fun m => (second.segment _).trans (first.segment m)
  setSegment := fun m seg => by rw [first.setSegment, second.setSegment]
  data := fun m b inside => (second.data _ b inside).trans (first.data m b inside)
  read := fun t b inside => (second.read t b inside).comp_left (first.read t b inside)
  stage := fun t => (second.stage t).comp_left (first.stage t)
  flush := fun k mine => (second.flush k mine).comp_left (first.flush k mine)
  clear := fun b inside => (second.clear b inside).comp_left (first.clear b inside)

theorem runAll {ops : List (SegIdx × Work)} (each : ∀ x ∈ ops, Elsewhere P idx (Work.act x)) :
    Elsewhere P idx fun m => Lanes.runAll Work.act m ops := by
  induction ops with
  | nil => exact .id
  | cons x ops ih =>
      have later := ih fun y member => each y (List.mem_cons_of_mem _ member)
      exact later.comp (each x List.mem_cons_self)

/-- Another segment's index is changed. -/
theorem setSegment_other {j : SegIdx} (other : j ≠ idx) (seg : Segment) :
    Elsewhere P idx fun m => m.setSegment j seg where
  perBlockNum := fun _ => rfl
  segment := fun m => Metadata.setSegment_of_ne m.md seg other.symm
  setSegment := fun m seg' => by
    simp only [Machine.setSegment, Metadata.setSegment_comm m.md other]
  data := fun _ _ _ => rfl
  read := fun _ _ _ _ => rfl
  stage := fun _ _ => rfl
  flush := fun _ _ _ => rfl
  clear := fun _ _ _ => rfl

end Elsewhere

/-! ## The other workers -/

section

variable {P : Nat} {idx : SegIdx}

/-- What the threads that migrate segment `idx` may touch, besides its index. -/
def migrateTerritory (P : Nat) (idx : SegIdx) : Set Loc :=
  {l | l ∈ nvmTerritory P idx ∨ l ∈ ssdTerritory idx ∨ ∃ t, l = .migrateBuf t}

theorem territory_elsewhere {j : SegIdx} (other : j ≠ idx) (w : Work) {l : Loc}
    (theirs : l ∈ w.territory P j) : l ∉ migrateTerritory P idx := by
  rintro (nvm | ssd | ⟨t, rfl⟩)
  · cases w with
    | stage _ | complete _ => exact nvm_ssd_disjoint nvm theirs
    | action _ => exact nvmTerritory_disjoint other theirs nvm
  · cases w with
    | stage _ | complete _ => exact ssdTerritory_disjoint other theirs ssd
    | action _ => exact nvm_ssd_disjoint theirs ssd
  · cases w with
    | stage _ | complete _ => rcases theirs with ⟨_, h, -⟩ | ⟨_, h, -⟩ | ⟨_, h, -⟩ <;> cases h
    | action _ => obtain ⟨_, -, h | h⟩ := theirs <;> cases h

theorem mem_not_migrateTerritory {a : Nat} : Loc.mem a ∉ migrateTerritory P idx := by
  rintro (nvm | ssd | ⟨t, same⟩)
  · exact mem_not_nvmTerritory nvm
  · exact mem_not_ssdTerritory ssd
  · cases same

/-- No memory of the callers. -/
def noClaim : MemClaim := ⟨false, 0, 0⟩

/-- An operation on the migration's territory commutes with the other workers'. -/
theorem commute_elsewhere {j : SegIdx} (other : j ≠ idx) {w : Work} (inside : w.InSegment P j)
    {R W : Set Loc} {g : Machine → Machine} (touches : Touches machineView g R W)
    (reads : R ⊆ migrateTerritory P idx) (writes : W ⊆ migrateTerritory P idx) :
    Function.Commute (Work.act (j, w)) g := by
  have bounded : Bounded (migrateTerritory P idx) noClaim g :=
    bounded_of_touches touches (fun l member => .inl (reads member))
      fun l member => .inl (writes member)
  apply (Work.bounded inside).commute bounded
  · exact fun l theirs => territory_elsewhere other w theirs
  · exact fun a => mem_not_territory w
  · exact fun a => mem_not_migrateTerritory
  · exact apart_of_empty rfl

theorem touches_migrateRead (t b : Nat) :
    Touches machineView (fun m : Machine =>
      { m with migrateBuf := Function.update m.migrateBuf t (m.nvm.data b) })
      {.data b} {.migrateBuf t} where
  frame := by
    intro m l outside
    cases l with
    | migrateBuf u =>
        apply Function.update_of_ne
        rintro rfl
        exact outside rfl
    | perBlockNum | segment idx | mem a | data b | record b | ssd b | memalignSrc k
    | memalignDst k => rfl
  depends := by
    rintro m m' same l rfl
    have data : m.nvm.data b = m'.nvm.data b := same (.data b) rfl
    change Function.update m.migrateBuf t (m.nvm.data b) t =
      Function.update m'.migrateBuf t (m'.nvm.data b) t
    rw [Function.update_self, Function.update_self, data]
  adds := ⟨0, fun m => (add_zero _).symm⟩

theorem touches_migrateStage (t slot : Nat) :
    Touches machineView (fun m : Machine => m.ssdWriteStage (fun _ => m.migrateBuf t) 1 slot)
      {.migrateBuf t} (srcRange (stagingBlock slot) 1) where
  frame := by
    intro m l outside
    cases l with
    | memalignSrc k =>
        change setBlocks m.memalignSrc (stagingBlock slot) 1 (fun _ => m.migrateBuf t) k =
          m.memalignSrc k
        apply setBlocks_outside
        intro inside
        exact outside ⟨k, rfl, inside.1, inside.2⟩
    | perBlockNum | segment idx | mem a | data b | record b | ssd b | memalignDst k
    | migrateBuf t => rfl
  depends := by
    rintro m m' same l ⟨k, rfl, low, high⟩
    have copied : m.migrateBuf t = m'.migrateBuf t := same (.migrateBuf t) rfl
    change setBlocks m.memalignSrc (stagingBlock slot) 1 (fun _ => m.migrateBuf t) k =
      setBlocks m'.memalignSrc (stagingBlock slot) 1 (fun _ => m'.migrateBuf t) k
    rw [setBlocks_inside low high, setBlocks_inside low high, copied]
  adds := ⟨0, fun m => (add_zero _).symm⟩

theorem data_of_touches {R W : Set Loc} {g : Machine → Machine}
    (touches : Touches machineView g R W) {b : Nat} (outside : Loc.data b ∉ W) (m : Machine) :
    (g m).nvm.data b = m.nvm.data b := touches.frame m (.data b) outside

/-- **The operations of another segment's workers leave a migration of segment 0 alone.** -/
theorem elsewhere_act (first : idx.val = 0) {j : SegIdx} (other : j ≠ idx) {w : Work}
    (inside : w.InSegment P j) : Elsewhere P idx (Work.act (j, w)) := by
  have block : ∀ b < P, idx * P ≤ b ∧ b < idx * P + P := by
    intro b below
    rw [first, Nat.zero_mul, Nat.zero_add]
    exact ⟨Nat.zero_le b, below⟩
  have staging : srcRange (stagingBlock MIGRATE_STAGING_SLOT) 1 ⊆ migrateTerritory P idx := by
    rintro l ⟨k, rfl, low, high⟩
    refine .inr (.inl (.inr (.inl ⟨k, rfl, ?_⟩)))
    simp only [stagingBlock, MIGRATE_STAGING_SLOT] at high
    omega
  constructor
  · exact fun m => congrArg Metadata.perBlockNum (Work.act_md _ m)
  · intro m
    rw [Machine.segment, Work.act_md]
    rfl
  · intro m seg
    have setMd : Work.act (j, w) (m.setMd (m.md.setSegment idx seg)) =
        (Work.act (j, w) m).setMd (m.md.setSegment idx seg) := Work.act_setMd _ _ _
    refine Eq.trans setMd ?_
    change _ = (Work.act (j, w) m).setMd ((Work.act (j, w) m).md.setSegment idx seg)
    rw [Work.act_md]
  · intro m b below
    apply data_of_touches (Work.bounded inside)
    rintro (theirs | written)
    · exact territory_elsewhere other w theirs (.inl ⟨b, block b below, .inl rfl⟩)
    · obtain ⟨a, same, -⟩ := written.2
      cases same
  · intro t b below
    apply commute_elsewhere other inside (touches_migrateRead t b)
    · rintro l rfl
      exact .inl ⟨b, block b below, .inl rfl⟩
    · rintro l rfl
      exact .inr (.inr ⟨t, rfl⟩)
  · intro t
    apply commute_elsewhere other inside (touches_migrateStage t _) ?_ staging
    rintro l rfl
    exact .inr (.inr ⟨t, rfl⟩)
  · intro k mine
    apply commute_elsewhere other inside (touches_ssdWriteFlush 1 k _) staging
    rintro l ⟨b, rfl, low, high⟩
    have same : b = k := by omega
    exact .inr (.inl (.inl ⟨b, rfl, same ▸ mine⟩))
  · intro b below
    apply commute_elsewhere other inside (touches_bufferClear b)
    · rintro l rfl
      exact .inl ⟨b, block b below, .inr rfl⟩
    · rintro l rfl
      exact .inl ⟨b, block b below, .inr rfl⟩

/-! ## The migration -/

/-- The pair in a thread's hands is one of the segment's. -/
def Held (P : Nat) (idx : SegIdx) (p : MigratePc) : Prop :=
  ∀ kv ∈ p.inflight, kv.2 < P ∧ segmentOf kv.1 = idx

namespace Elsewhere

variable {T : Nat} {f : Machine → Machine} {m m' : Machine}

theorem migrateAction (apart : Elsewhere P idx f) {t : Fin T} {p p' : MigratePc}
    (held : Held P idx p) (acted : Mixdk.migrateAction idx t m p = some (m', p')) :
    Mixdk.migrateAction idx t (f m) p = some (f m', p') := by
  cases p with
  | pop b =>
      simp only [Mixdk.migrateAction, apart.segment] at acted ⊢
      split at acted
      · rename_i inside
        rw [if_pos inside]
        obtain ⟨⟨kv, hash⟩, got, next⟩ := Option.map_eq_some_iff.1 acted
        rw [got, Option.map_some, ← apart.setSegment]
        simp only at next ⊢
        split at next
        · rename_i marker
          rw [if_pos marker]
          cases next
          rfl
        · rename_i proper
          rw [if_neg proper]
          cases next
          rfl
      · rename_i outside
        rw [if_neg outside]
        cases acted
        rfl
  | read b kv =>
      cases acted
      have slot := (held kv (List.mem_singleton_self kv)).1
      exact congrArg (fun n => some (n, MigratePc.stage b kv)) (apart.read t kv.2 slot m).symm
  | stage b kv =>
      cases acted
      exact congrArg (fun n => some (n, MigratePc.flush b kv)) (apart.stage t m).symm
  | flush b kv =>
      cases acted
      have mine := (held kv (List.mem_singleton_self kv)).2
      exact congrArg (fun n => some (n, MigratePc.clear b kv)) (apart.flush kv.1 mine m).symm
  | clear b kv =>
      cases acted
      have slot := (held kv (List.mem_singleton_self kv)).1
      exact congrArg (fun n => some (n, MigratePc.count b kv)) (apart.clear kv.2 slot m).symm
  | count b kv =>
      cases acted
      simp only [Mixdk.migrateAction, apart.segment, ← apart.setSegment]
  | done => cases acted

/-- The machine of a migration changed by `f`. -/
def onState (f : Machine → Machine) (s : MigrateState T) : MigrateState T := { s with m := f s.m }

theorem migrateStep (apart : Elsewhere P idx f) {s s' : MigrateState T} {t : Fin T}
    (held : Held P idx (s.pc t)) (stepped : Mixdk.migrateStep idx s t = some s') :
    Mixdk.migrateStep idx (onState f s) t = some (onState f s') := by
  obtain ⟨⟨m', p'⟩, acted, rfl⟩ := Option.map_eq_some_iff.1 stepped
  have there : Mixdk.migrateAction idx t (onState f s).m ((onState f s).pc t) =
      some (f m', p') := apart.migrateAction held acted
  rw [Mixdk.migrateStep, there]
  rfl

theorem stagesApart (apart : Elsewhere P idx f) {s : MigrateState T} {t : Fin T}
    (held : ∀ u, Held P idx (s.pc u)) (met : Apart s t) : Apart (onState f s) t := by
  intro b kv here u c kv' there
  have slot : kv.2 < P := by
    apply (held t kv _).1
    rw [show s.pc t = .stage b kv from here]
    exact List.mem_singleton_self kv
  have slot' : kv'.2 < P := by
    apply (held u kv' _).1
    rw [show s.pc u = .flush c kv' from there]
    exact List.mem_singleton_self kv'
  change (f s.m).nvm.data kv'.2 = (f s.m).nvm.data kv.2
  rw [apart.data _ _ slot, apart.data _ _ slot']
  exact met b kv here u c kv' there

/-- **A migration runs on the changed machine as on the machine before.** -/
theorem migration (apart : Elsewhere P idx f) (ok : Indexed P (m.segment idx))
    (keys : ∀ kv ∈ (m.segment idx).hash.entries, segmentOf kv.1 = idx) {sched : List (Fin T)}
    {s : MigrateState T} (run : Run (Mixdk.migrateStep idx) Apart (migrationStart m T) sched s) :
    Run (Mixdk.migrateStep idx) Apart (migrationStart (f m) T) sched (onState f s) := by
  have held : ∀ r : MigrateState T, Draining idx m r → ∀ u, Held P idx (r.pc u) := by
    rintro r ⟨⟨fin, drained⟩, -⟩ u kv inHand
    have entry := drained.mem_of_inflight inHand
    exact ⟨(ok.slot_small entry).1, keys kv entry⟩
  refine run.map (I := Draining idx m) (f := onState f) ?_ ?_ (.start m ok.drainable)
  · exact fun r t r' before stepped => before.step ok.drainable stepped
  · intro r t r' before met stepped
    exact ⟨apart.stagesApart (held r before) met, apart.migrateStep (held r before t) stepped⟩

end Elsewhere

end

end Mixdk
