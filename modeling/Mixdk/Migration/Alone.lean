/-
# Migration.Alone -- migrate threads running one at a time

A migrate thread is never blocked: while it is not at its end it has an action
(`migrateStep_enabled`), and each action makes its walk shorter (`aloneMeasure_lt`).  So a thread run on
its own gets to any point its walk has to pass (`run_alone`), and every drain that has
begun can be brought to its end (`exists_end`).  The overlap in which one thread
stages between another's staging and its write is built from three such runs
(`exists_overlap`).
-/
import Mixdk.Migration.Staging

namespace Mixdk

open scoped List
open Transition

set_option autoImplicit false

/-- Actions up to the end of the walk, in a table of `n` buckets, without those that pop. -/
def MigratePc.toGo (n : Nat) : MigratePc → Nat
  | .pop b => n - b + 1
  | .read b _ => n - b + 6
  | .stage b _ => n - b + 5
  | .flush b _ => n - b + 4
  | .clear b _ => n - b + 3
  | .count b _ => n - b + 2
  | .done => 0

section

variable {T : Nat} {idx : SegIdx} {m₀ : Machine} {s s' : MigrateState T}

/-- Bounds the actions thread `t` still has, when it runs alone. -/
def aloneMeasure (idx : SegIdx) (t : Fin T) (s : MigrateState T) : Nat :=
  10 * (s.m.segment idx).hash.entries.length + (s.pc t).toGo (s.m.segment idx).hash.hashSize

/-- What holds all through a drain, in every interleaving. -/
structure Draining (idx : SegIdx) (m₀ : Machine) (s : MigrateState T) : Prop where
  drained : ∃ fin, Drained idx m₀ s fin
  accounted : Accounted idx m₀ s

/-- What the results below assume of the table at the start. -/
structure Drainable (h : Hash) : Prop where
  proper : h.Proper
  distinct : (h.entries.map Prod.fst).Nodup
  lens : ∀ i < h.hashSize, (h.hashNodes i).len.toInt = (h.chain i).length

theorem Draining.start (m : Machine) (ok : Drainable (m.segment idx).hash) :
    Draining idx m (migrationStart m T) :=
  ⟨⟨[], .start idx m ok.lens⟩, .start ok.distinct⟩

theorem Draining.step {t : Fin T} (ok : Drainable (m₀.segment idx).hash)
    (inv : Draining idx m₀ s) (stepped : migrateStep idx s t = some s') :
    Draining idx m₀ s' := by
  obtain ⟨⟨_, drained⟩, acc⟩ := inv
  exact ⟨drained.step ok.proper stepped, acc.step ok.proper stepped⟩

/-- A thread that is not at its end has an action. -/
theorem migrateStep_enabled (inv : Draining idx m₀ s) {t : Fin T} (busy : s.pc t ≠ .done) :
    ∃ s', migrateStep idx s t = some s' := by
  obtain ⟨⟨fin, drained⟩, -⟩ := inv
  suffices acts : (migrateAction idx t s.m (s.pc t)).isSome by
    obtain ⟨next, acted⟩ := Option.isSome_iff_exists.1 acts
    exact ⟨⟨next.1, Function.update s.pc t next.2⟩, by simp only [migrateStep, acted, Option.map_some]⟩
  cases at_ : s.pc t with
  | pop b =>
      simp only [migrateAction]
      split
      · rename_i inside
        have counted := drained.lens b (drained.size ▸ inside)
        rw [Option.isSome_map]
        cases chain : (s.m.segment idx).hash.chain b with
        | nil =>
            rw [chain] at counted
            rw [getEntryByIdx_of_empty (by simp [int32_pos_iff, counted])]
            rfl
        | cons kv rest =>
            rw [chain] at counted
            rw [getEntryByIdx_of_cons (int32_pos_iff.2 (by simp [counted])) chain]
            rfl
      · rfl
  | done => exact absurd at_ busy
  | _ => rfl

/-- Each action of a thread makes its walk shorter. -/
theorem aloneMeasure_lt {t : Fin T} (stepped : migrateStep idx s t = some s') :
    aloneMeasure idx t s' < aloneMeasure idx t s := by
  have some_thread : 0 < T := Nat.lt_of_le_of_lt (Nat.zero_le _) t.isLt
  obtain ⟨p', move, moved⟩ := migrateStep_eq_some stepped
  have here : s'.pc t = p' := by rw [moved, Function.update_self]
  unfold aloneMeasure
  rw [here]
  generalize s.pc t = p at move
  generalize s'.m = m' at move
  cases move with
  | next inside empty => simp only [MigratePc.toGo]; omega
  | leave outside => simp only [MigratePc.toGo]; omega
  | @take b kv rest inside nonempty head =>
      have off := (entries_setNode_perm
        (n := ((s.m.segment idx).hash.hashNodes b).len - 1) inside head).length_eq
      rw [List.length_cons] at off
      rw [Machine.segment_setSegment, setNode_hashSize, off]
      split
      · simp only [MigratePc.toGo]; omega
      · simp only [MigratePc.toGo]; omega
  | count =>
      rw [Machine.segment_setSegment]
      simp only [MigratePc.toGo]
      omega
  | @read b => exact Nat.add_lt_add_left (Nat.lt_succ_self (_ - b + 5)) _
  | @stage b => exact Nat.add_lt_add_left (Nat.lt_succ_self (_ - b + 4)) _
  | @flush b => exact Nat.add_lt_add_left (Nat.lt_succ_self (_ - b + 3)) _
  | @clear b => exact Nat.add_lt_add_left (Nat.lt_succ_self (_ - b + 2)) _

/-! ## Where a pair comes from -/

/-- Every pair in a chain or in a thread's hands comes from the same bucket of the start. -/
structure Traced (idx : SegIdx) (m₀ : Machine) (s : MigrateState T) : Prop where
  size : (s.m.segment idx).hash.hashSize = (m₀.segment idx).hash.hashSize
  chains : ∀ i, ∀ kv ∈ (s.m.segment idx).hash.chain i, kv ∈ (m₀.segment idx).hash.chain i
  held : ∀ t b, (s.pc t).bucket = some b → ∀ kv ∈ (s.pc t).unflushed,
    b < (m₀.segment idx).hash.hashSize ∧ kv ∈ (m₀.segment idx).hash.chain b

theorem Traced.start (m : Machine) : Traced idx m (migrationStart m T) where
  size := rfl
  chains := fun _ _ member => member
  held := fun _ _ _ _ member => by cases member

/-- A step only ever shortens the chains. -/
theorem chain_subset {t : Fin T} (stepped : migrateStep idx s t = some s') :
    (s'.m.segment idx).hash.hashSize = (s.m.segment idx).hash.hashSize ∧
      ∀ i, ∀ kv ∈ (s'.m.segment idx).hash.chain i, kv ∈ (s.m.segment idx).hash.chain i := by
  obtain ⟨p', move, -⟩ := migrateStep_eq_some stepped
  generalize s.pc t = p at move
  generalize s'.m = m' at move
  cases move with
  | @take b kv' rest inside nonempty head =>
      rw [Machine.segment_setSegment, setNode_hashSize, chain_setNode]
      refine ⟨rfl, fun i kv member => ?_⟩
      by_cases at_ : i = b
      · subst at_
        rw [Function.update_self] at member
        rw [head]
        exact List.mem_cons_of_mem _ member
      · rwa [Function.update_of_ne at_] at member
  | count => rw [Machine.segment_setSegment]; exact ⟨rfl, fun _ _ member => member⟩
  | _ => exact ⟨rfl, fun _ _ member => member⟩

theorem Traced.step {t : Fin T} (traced : Traced idx m₀ s)
    (stepped : migrateStep idx s t = some s') : Traced idx m₀ s' := by
  obtain ⟨size, chains⟩ := chain_subset stepped
  refine ⟨size.trans traced.size, fun i kv member => traced.chains i kv (chains i kv member), ?_⟩
  obtain ⟨p', move, moved⟩ := migrateStep_eq_some stepped
  have here := traced.held t
  rw [moved]
  refine forall_update (P := fun _ p => ∀ b, p.bucket = some b → ∀ kv ∈ p.unflushed,
    b < (m₀.segment idx).hash.hashSize ∧ kv ∈ (m₀.segment idx).hash.chain b) traced.held ?_
  generalize s.pc t = p at move here
  generalize s'.m = m' at move
  cases move with
  | @take b kv rest inside nonempty head =>
      intro c inBucket kv' member
      split at inBucket
      · rename_i marker
        rw [if_pos marker] at member
        cases member
      · rename_i proper
        rw [if_neg proper] at member
        simp only [MigratePc.bucket, Option.some.injEq] at inBucket
        rw [List.mem_singleton.1 member, ← inBucket]
        exact ⟨traced.size ▸ inside, traced.chains b kv (head ▸ List.mem_cons_self)⟩
  | read => exact here
  | stage => exact here
  | _ => exact fun _ _ _ member => by cases member

/-! ## Runs of one thread -/

/-- `s'` is reached from `s` by actions of thread `t` alone. -/
structure Alone (idx : SegIdx) (m₀ : Machine) (t : Fin T) (s s' : MigrateState T) : Prop where
  draining : Draining idx m₀ s'
  others : ∀ u ≠ t, s'.pc u = s.pc u
  table : ∀ i, i % T ≠ t → (s'.m.segment idx).hash.chain i = (s.m.segment idx).hash.chain i

theorem Alone.refl {t : Fin T} (inv : Draining idx m₀ s) : Alone idx m₀ t s s :=
  ⟨inv, fun _ _ => rfl, fun _ _ => rfl⟩

/-- The chains of the buckets of other threads stay as they are. -/
theorem chain_of_other {t : Fin T} (inv : Draining idx m₀ s)
    (stepped : migrateStep idx s t = some s') {i : Nat} (other : i % T ≠ t) :
    (s'.m.segment idx).hash.chain i = (s.m.segment idx).hash.chain i := by
  obtain ⟨⟨fin, drained⟩, -⟩ := inv
  obtain ⟨p', move, -⟩ := migrateStep_eq_some stepped
  have mine := (drained.walk t).1
  generalize s.pc t = p at move mine
  generalize s'.m = m' at move
  cases move with
  | @take b kv rest inside nonempty head =>
      have ne : i ≠ b := fun e => other (e ▸ mine b rfl)
      rw [Machine.segment_setSegment, chain_setNode, Function.update_of_ne ne]
  | count => rw [Machine.segment_setSegment]
  | _ => rfl

theorem Alone.step {t : Fin T} {s'' : MigrateState T} (ok : Drainable (m₀.segment idx).hash)
    (alone : Alone idx m₀ t s s') (stepped : migrateStep idx s' t = some s'') :
    Alone idx m₀ t s s'' where
  draining := alone.draining.step ok stepped
  others := fun u other => (pc_of_ne stepped other).trans (alone.others u other)
  table := fun i other => (chain_of_other alone.draining stepped other).trans (alone.table i other)

/-- **A thread on its own reaches what it cannot miss.**  `kept` carries what is known until
then; `stops` says that the thread is not at its end before. -/
theorem run_alone (ok : Drainable (m₀.segment idx).hash) {t : Fin T}
    {K R : MigrateState T → Prop}
    (kept : ∀ r r', Draining idx m₀ r → K r → ¬ R r → migrateStep idx r t = some r' →
      K r')
    (stops : ∀ r, Draining idx m₀ r → K r → r.pc t = .done → R r)
    (inv : Draining idx m₀ s) (known : K s) :
    ∃ sched s', exec (migrateStep idx) s sched = some s' ∧ Alone idx m₀ t s s' ∧ K s' ∧
      R s' := by
  have progress : ∀ r, Alone idx m₀ t s r ∧ K r → ¬ R r →
      ∃ r', migrateStep idx r t = some r' ∧ (Alone idx m₀ t s r' ∧ K r') ∧
        aloneMeasure idx t r' < aloneMeasure idx t r := by
    rintro r ⟨alone, before⟩ notYet
    have busy : r.pc t ≠ .done := fun at_ => notYet (stops r alone.draining before at_)
    obtain ⟨r', stepped⟩ := migrateStep_enabled alone.draining busy
    exact ⟨r', stepped, ⟨alone.step ok stepped, kept r r' alone.draining before notYet stepped⟩,
      aloneMeasure_lt stepped⟩
  obtain ⟨n, s', ran, ⟨alone, after⟩, reached⟩ :=
    exec_until (aloneMeasure idx t) t progress ⟨Alone.refl inv, known⟩
  exact ⟨_, s', ran, alone, after, reached⟩

/-- A thread on its own comes to its end. -/
theorem exists_done (ok : Drainable (m₀.segment idx).hash) (inv : Draining idx m₀ s)
    (t : Fin T) : ∃ sched s', exec (migrateStep idx) s sched = some s' ∧
      Alone idx m₀ t s s' ∧ s'.pc t = .done := by
  obtain ⟨sched, s', ran, alone, -, done⟩ :=
    run_alone ok (K := fun _ => True) (R := fun r => r.pc t = .done)
      (fun _ _ _ _ _ _ => trivial) (fun _ _ _ at_ => at_) inv trivial
  exact ⟨sched, s', ran, alone, done⟩

theorem exists_all_done (ok : Drainable (m₀.segment idx).hash) (inv : Draining idx m₀ s)
    (ts : List (Fin T)) : ∃ sched s', exec (migrateStep idx) s sched = some s' ∧
      Draining idx m₀ s' ∧ (∀ t ∈ ts, s'.pc t = .done) := by
  induction ts with
  | nil => exact ⟨[], s, rfl, inv, fun _ member => by cases member⟩
  | cons t ts ih =>
      obtain ⟨first, r, ran, inv', ends⟩ := ih
      obtain ⟨second, s', ran', alone, done⟩ := exists_done ok inv' t
      refine ⟨first ++ second, s', exec_trans ran ran', alone.draining, fun u member => ?_⟩
      by_cases mine : u = t
      · rw [mine, done]
      · rw [alone.others u mine, ends u ((List.mem_cons.1 member).resolve_left mine)]

/-- Every drain that has begun can be brought to its end. -/
theorem exists_end (ok : Drainable (m₀.segment idx).hash) (inv : Draining idx m₀ s) :
    ∃ sched s', exec (migrateStep idx) s sched = some s' ∧ Draining idx m₀ s' ∧
      ∀ t, s'.pc t = .done := by
  obtain ⟨sched, s', ran, inv', ends⟩ := exists_all_done ok inv (List.finRange T)
  exact ⟨sched, s', ran, inv', fun t => ends t (List.mem_finRange t)⟩

/-! ## An entry on its way -/

/-- A step that does not pop `kv` leaves it in its bucket. -/
theorem stays_or_popped {t : Fin T} {i : Nat} {kv : MixKv}
    (ok : Drainable (m₀.segment idx).hash) (inv : Draining idx m₀ s)
    (below : i < (s.m.segment idx).hash.hashSize)
    (there : kv ∈ (s.m.segment idx).hash.chain i)
    (stepped : migrateStep idx s t = some s') :
    (i < (s'.m.segment idx).hash.hashSize ∧ kv ∈ (s'.m.segment idx).hash.chain i) ∨
      s'.pc t = .read i kv := by
  obtain ⟨p', move, moved⟩ := migrateStep_eq_some stepped
  have here : s'.pc t = p' := by rw [moved, Function.update_self]
  have member : kv ∈ pending idx s := mem_pending.2 (Or.inr (ChainTable.mem_pairs.2 ⟨i, below, there⟩))
  have proper := inv.accounted.proper ok.proper kv member
  rw [here]
  generalize s.pc t = p at move
  generalize s'.m = m' at move
  cases move with
  | @take b kv' rest inside nonempty head =>
      rw [Machine.segment_setSegment, setNode_hashSize, chain_setNode]
      by_cases at_ : i = b
      · subst at_
        rw [head, List.mem_cons] at there
        rcases there with rfl | rest'
        · exact Or.inr (if_neg (by tauto))
        · exact Or.inl ⟨below, by rwa [Function.update_self]⟩
      · exact Or.inl ⟨below, by rwa [Function.update_of_ne at_]⟩
  | count => rw [Machine.segment_setSegment]; exact Or.inl ⟨below, there⟩
  | _ => exact Or.inl ⟨below, there⟩

/-- The thread of an entry's bucket, on its own, brings the entry to just before its write. -/
theorem exists_flush (ok : Drainable (m₀.segment idx).hash) (inv : Draining idx m₀ s)
    {t : Fin T} {i : Nat} {kv : MixKv} (mine : i % T = t)
    (below : i < (s.m.segment idx).hash.hashSize)
    (there : kv ∈ (s.m.segment idx).hash.chain i) :
    ∃ sched s', exec (migrateStep idx) s sched = some s' ∧ Alone idx m₀ t s s' ∧
      s'.pc t = .flush i kv ∧
      s'.m.memalignSrc (stagingBlock MIGRATE_STAGING_SLOT) = m₀.nvm.data kv.2 := by
  have stops : ∀ r, Draining idx m₀ r →
      ((i < (r.m.segment idx).hash.hashSize ∧ kv ∈ (r.m.segment idx).hash.chain i) ∨
        r.pc t = .read i kv) → r.pc t = .done → r.pc t = .read i kv := by
    rintro r ⟨⟨fin, drained⟩, -⟩ (⟨inside, member⟩ | at_) ended
    · have passed := (ended ▸ drained.walk t).2 i (drained.size ▸ inside) mine trivial
      rw [passed] at member
      cases member
    · exact at_
  obtain ⟨sched, r, ran, alone, -, at_⟩ := run_alone ok
    (K := fun r => (i < (r.m.segment idx).hash.hashSize ∧
      kv ∈ (r.m.segment idx).hash.chain i) ∨ r.pc t = .read i kv)
    (R := fun r => r.pc t = .read i kv)
    (fun r r' inv' known notYet stepped => by
      obtain ⟨inside, member⟩ := known.resolve_right notYet
      exact stays_or_popped ok inv' inside member stepped)
    stops inv (Or.inl ⟨below, there⟩)
  -- two more actions: read the block, stage it
  obtain ⟨r₁, step₁⟩ := migrateStep_enabled alone.draining (t := t) (by rw [at_]; simp)
  have alone₁ := alone.step ok step₁
  have at₁ : r₁.pc t = .stage i kv := by
    simp only [migrateStep, at_, migrateAction, Option.map_some, Option.some.injEq] at step₁
    rw [← step₁]
    simp
  obtain ⟨r₂, step₂⟩ := migrateStep_enabled alone₁.draining (t := t) (by rw [at₁]; simp)
  have staged : r₂.pc t = .flush i kv ∧
      r₂.m.memalignSrc (stagingBlock MIGRATE_STAGING_SLOT) = r₁.m.migrateBuf t := by
    simp only [migrateStep, at₁, migrateAction, Option.map_some, Option.some.injEq] at step₂
    rw [← step₂]
    exact ⟨by simp, by simp only [ssdWriteStage_one, Function.update_self]⟩
  refine ⟨sched ++ [t, t], r₂, exec_trans ran ?_, alone₁.step ok step₂, staged.1, ?_⟩
  · exact exec_cons_eq_some.2 ⟨r₁, step₁, exec_cons_eq_some.2 ⟨r₂, step₂, rfl⟩⟩
  · rw [staged.2, alone₁.draining.accounted.buffers t i kv at₁]

/-- What a thread about to write writes, and that this is for good. -/
theorem exists_end_of_flush (ok : Drainable (m₀.segment idx).hash) (inv : Draining idx m₀ s)
    {t : Fin T} {i : Nat} {kv : MixKv} (at_ : s.pc t = .flush i kv) :
    ∃ sched s', exec (migrateStep idx) s sched = some s' ∧ (∀ u, s'.pc u = .done) ∧
      s'.m.ssd kv.1 = s.m.memalignSrc (stagingBlock MIGRATE_STAGING_SLOT) := by
  obtain ⟨r, stepped⟩ := migrateStep_enabled inv (t := t) (by rw [at_]; simp)
  have inv' := inv.step ok stepped
  have held : kv ∈ pending idx s :=
    mem_pending.2 (Or.inl ⟨t, by rw [at_]; exact List.mem_singleton_self kv⟩)
  have entry := inv.accounted.within kv held
  obtain ⟨ssd, less⟩ := pending_flush at_ stepped
  have written : r.m.ssd kv.1 = s.m.memalignSrc (stagingBlock MIGRATE_STAGING_SLOT) := by
    rw [ssd, Function.update_self]
  have gone : kv ∉ pending idx r := by
    have distinct := (less.map Prod.fst).nodup_iff.1 inv.accounted.distinct
    rw [List.map_cons, List.nodup_cons] at distinct
    exact fun member => distinct.1 (List.mem_map_of_mem member)
  obtain ⟨sched, s', ran, -, ends⟩ := exists_end ok inv'
  have kept := exec_invariant
    (I := fun r' => Draining idx m₀ r' ∧ kv ∉ pending idx r' ∧ r'.m.ssd kv.1 = r.m.ssd kv.1)
    (fun a u b before moved => by
      have settled := before.1.accounted.settled ok.proper ok.distinct entry before.2.1 moved
      exact ⟨before.1.step ok moved, settled.1, settled.2.trans before.2.2⟩)
    ran ⟨inv', gone, rfl⟩
  exact ⟨t :: sched, s', exec_cons_eq_some.2 ⟨r, stepped, ran⟩, ends, kept.2.2.trans written⟩

/-- Every entry is written from the buffer block of its slot number in some interleaving. -/
theorem exists_clean {m : Machine} (ok : Drainable (m.segment idx).hash) (pos : 0 < T)
    {kv : MixKv} (entry : kv ∈ (m.segment idx).hash.entries) :
    ∃ sched s', exec (migrateStep idx) (migrationStart m T) sched = some s' ∧
      (∀ u, s'.pc u = .done) ∧ s'.m.ssd kv.1 = m.nvm.data kv.2 := by
  obtain ⟨i, below, there⟩ := ChainTable.mem_pairs.1 entry
  obtain ⟨first, r, ran, alone, at_, data⟩ := exists_flush (t := ⟨i % T, Nat.mod_lt _ pos⟩) ok
    (Draining.start (T := T) m ok) rfl below there
  obtain ⟨second, s', ran', ends, written⟩ := exists_end_of_flush ok alone.draining at_
  exact ⟨first ++ second, s', exec_trans ran ran', ends, written.trans data⟩

/-- **The overlap.**  Of two entries in buckets of different threads, one can be written
with the other's block. -/
theorem exists_overlap {m : Machine} (ok : Drainable (m.segment idx).hash) (pos : 0 < T)
    {i j : Nat} {kv kv' : MixKv} (threads : i % T ≠ j % T)
    (belowI : i < (m.segment idx).hash.hashSize) (inI : kv ∈ (m.segment idx).hash.chain i)
    (belowJ : j < (m.segment idx).hash.hashSize) (inJ : kv' ∈ (m.segment idx).hash.chain j) :
    ∃ sched s', exec (migrateStep idx) (migrationStart m T) sched = some s' ∧
      (∀ u, s'.pc u = .done) ∧ s'.m.ssd kv.1 = m.nvm.data kv'.2 := by
  -- the thread of `kv` stages its block, then the thread of `kv'` stages over it
  obtain ⟨first, r, ran, alone, at_, -⟩ := exists_flush (t := ⟨i % T, Nat.mod_lt _ pos⟩) ok
    (Draining.start (T := T) m ok) rfl belowI inI
  have size : (r.m.segment idx).hash.hashSize = (m.segment idx).hash.hashSize := by
    obtain ⟨fin, drained⟩ := alone.draining.drained
    exact drained.size
  have still : kv' ∈ (r.m.segment idx).hash.chain j := by
    rw [alone.table j (Ne.symm threads)]
    exact inJ
  obtain ⟨second, r', ran', alone', -, data⟩ := exists_flush (t := ⟨j % T, Nat.mod_lt _ pos⟩) ok
    alone.draining rfl (size.symm ▸ belowJ) still
  have held : r'.pc ⟨i % T, Nat.mod_lt _ pos⟩ = .flush i kv := by
    rw [alone'.others _ (fun e => threads (Fin.val_eq_of_eq e)), at_]
  obtain ⟨third, s', ran'', ends, written⟩ := exists_end_of_flush ok alone'.draining held
  exact ⟨first ++ (second ++ third), s', exec_trans ran (exec_trans ran' ran''), ends,
    written.trans data⟩

end

end Mixdk
