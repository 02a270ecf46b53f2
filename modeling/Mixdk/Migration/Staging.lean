/-
# Migration.Staging -- what a drain writes to the SSD

All migrate threads share staging slot 0 of `mix_ssd_write`.  A thread copies its
block there and writes the slot to the SSD in two separate actions, so the block
that reaches the SSD is the one staged last.

`Accounted` holds in every interleaving: each entry is written at most once, and
each thread's own copy buffer is right.  `Staged` adds that the SSD has the right
data, and needs that nobody stages a different block between a thread's two
actions (`Apart`).  A thread can also be run on its own (`run_alone`), which
gives the interleavings that show `Apart` to be needed (`exists_overlap`).
-/
import Mixdk.Migration.Drain

namespace Mixdk

open scoped List
open Transition

set_option autoImplicit false

namespace MigratePc

/-- The pair a thread has popped and not yet written to the SSD. -/
def unflushed : MigratePc → List MixKv
  | .read _ kv | .stage _ kv | .flush _ kv => [kv]
  | _ => []

end MigratePc

section Pending

variable {T : Nat} {idx : SegIdx} {m₀ : Machine} {s s' : MigrateState T} {t : Fin T}

/-- The pairs a drain has still to write to the SSD. -/
def pending (idx : SegIdx) (s : MigrateState T) : List MixKv :=
  overThreads MigratePc.unflushed s.pc ++ (s.m.segment idx).hash.entries

theorem mem_pending {kv : MixKv} : kv ∈ pending idx s ↔
    (∃ t, kv ∈ (s.pc t).unflushed) ∨ kv ∈ (s.m.segment idx).hash.entries := by
  rw [pending, List.mem_append, mem_overThreads]

theorem pending_start (m : Machine) :
    pending idx (migrationStart m T) = (m.segment idx).hash.entries := by
  rw [pending, overThreads_start _ (fun _ => rfl)]
  rfl

theorem pending_quiet {p' : MigratePc} (moved : s'.pc = Function.update s.pc t p')
    (table : (s'.m.segment idx).hash.entries = (s.m.segment idx).hash.entries)
    (held : p'.unflushed = (s.pc t).unflushed) : (pending idx s').Perm (pending idx s) := by
  have traded := overThreads_move (f := MigratePc.unflushed) moved
  rw [held, List.perm_append_right_iff] at traded
  unfold pending
  rw [table]
  exact traded.append_right _

/-- The `pwrite` of a pair: the SSD gets what is in the staging slot. -/
theorem pending_flush {b : Nat} {kv : MixKv} (at_ : s.pc t = .flush b kv)
    (stepped : migrateStep idx s t = some s') :
    s'.m.ssd = Function.update s.m.ssd kv.1
        (s.m.memalignSrc (stagingBlock MIGRATE_STAGING_SLOT)) ∧
      (pending idx s).Perm (kv :: pending idx s') := by
  simp only [migrateStep, at_, migrateAction, Option.map_some, Option.some.injEq] at stepped
  subst stepped
  refine ⟨ssdWriteFlush_one _ _ _, List.perm_iff_count.2 fun x => ?_⟩
  have traded := (overThreads_update MigratePc.unflushed s.pc t (.clear b kv)).count_eq x
  rw [at_] at traded
  simp only [List.count_append, MigratePc.unflushed, List.count_nil] at traded
  show (overThreads _ s.pc ++ (s.m.segment idx).hash.entries).count x =
    (kv :: (overThreads _ _ ++ (s.m.segment idx).hash.entries)).count x
  simp only [List.count_append, List.count_cons, List.count_nil] at traded ⊢
  omega

/-- An action either leaves the SSD and the pending pairs alone or writes one pending pair. -/
theorem pending_step (proper : ∀ kv ∈ pending idx s, kv.1 ≠ NO_ENTRY ∧ kv.2 ≠ NO_ENTRY)
    (stepped : migrateStep idx s t = some s') :
    (s'.m.ssd = s.m.ssd ∧ (pending idx s').Perm (pending idx s)) ∨
    ∃ b kv, s.pc t = .flush b kv ∧
      s'.m.ssd = Function.update s.m.ssd kv.1
        (s.m.memalignSrc (stagingBlock MIGRATE_STAGING_SLOT)) ∧
      (pending idx s).Perm (kv :: pending idx s') := by
  obtain ⟨p', move, moved⟩ := migrateStep_eq_some stepped
  generalize at_ : s.pc t = p at move
  generalize became : s'.m = m' at move
  cases move with
  | next inside empty =>
      exact Or.inl ⟨rfl, pending_quiet moved (by rw [became]) (by rw [at_]; rfl)⟩
  | leave outside =>
      exact Or.inl ⟨rfl, pending_quiet moved (by rw [became]) (by rw [at_]; rfl)⟩
  | @take b kv rest inside nonempty head =>
      have there := mem_entries_of_chain inside head
      have ok := proper kv (mem_pending.2 (Or.inr there))
      rw [if_neg (by tauto)] at moved
      have traded := overThreads_move (f := MigratePc.unflushed) moved
      rw [at_] at traded
      have off : (s.m.segment idx).hash.entries.Perm (kv :: (s'.m.segment idx).hash.entries) := by
        rw [became, Machine.segment_setSegment]
        exact entries_setNode_perm inside head
      refine Or.inl ⟨rfl, List.perm_iff_count.2 fun x => ?_⟩
      have h₁ := traded.count_eq x
      have h₂ := off.count_eq x
      simp only [pending, List.count_append, MigratePc.unflushed, List.count_nil, List.count_cons]
        at h₁ h₂ ⊢
      omega
  | read => exact Or.inl ⟨rfl, pending_quiet moved (by rw [became]; rfl) (by rw [at_]; rfl)⟩
  | stage =>
      exact Or.inl ⟨rfl,
        pending_quiet moved (by rw [became]; rfl) (by rw [at_]; rfl)⟩
  | @flush b kv =>
      have wrote := pending_flush at_ stepped
      exact Or.inr ⟨b, kv, rfl, became ▸ wrote.1, wrote.2⟩
  | clear =>
      exact Or.inl ⟨rfl, pending_quiet moved (by rw [became]; rfl) (by rw [at_]; rfl)⟩
  | count =>
      refine Or.inl ⟨rfl, pending_quiet moved ?_ (by rw [at_]; rfl)⟩
      rw [became, Machine.segment_setSegment]

end Pending

/-! ## In every interleaving -/

/-- The pairs still to be written are entries, with distinct blocks, and a thread about to
stage has the right block in its copy buffer. -/
structure Accounted {T : Nat} (idx : SegIdx) (m₀ : Machine) (s : MigrateState T) : Prop where
  data : s.m.nvm.data = m₀.nvm.data
  distinct : ((pending idx s).map Prod.fst).Nodup
  within : ∀ kv ∈ pending idx s, kv ∈ (m₀.segment idx).hash.entries
  buffers : ∀ t b kv, s.pc t = .stage b kv → s.m.migrateBuf t = m₀.nvm.data kv.2

section Runs

variable {T : Nat} {idx : SegIdx} {m₀ : Machine} {s s' : MigrateState T} {t : Fin T}

theorem Accounted.start {m : Machine}
    (distinct : ((m.segment idx).hash.entries.map Prod.fst).Nodup) :
    Accounted idx m (migrationStart m T) where
  data := rfl
  distinct := by rwa [pending_start]
  within := fun kv member => by rwa [pending_start] at member
  buffers := fun t b kv at_ => by cases at_

theorem Accounted.proper (acc : Accounted idx m₀ s) (proper : (m₀.segment idx).hash.Proper) :
    ∀ kv ∈ pending idx s, kv.1 ≠ NO_ENTRY ∧ kv.2 ≠ NO_ENTRY :=
  fun kv member => proper kv (acc.within kv member)

/-- What a step does to the points of the threads: only `t` moves. -/
theorem pc_of_ne {u : Fin T} (stepped : migrateStep idx s t = some s') (other : u ≠ t) :
    s'.pc u = s.pc u := by
  obtain ⟨p', -, moved⟩ := migrateStep_eq_some stepped
  rw [moved, Function.update_of_ne other]

theorem Accounted.step (proper : (m₀.segment idx).hash.Proper) (acc : Accounted idx m₀ s)
    (stepped : migrateStep idx s t = some s') : Accounted idx m₀ s' := by
  have account : ((pending idx s').map Prod.fst).Nodup ∧
      ∀ kv ∈ pending idx s', kv ∈ (m₀.segment idx).hash.entries := by
    rcases pending_step (acc.proper proper) stepped with ⟨-, same⟩ | ⟨b, kv, -, -, less⟩
    · exact ⟨(same.map Prod.fst).nodup_iff.2 acc.distinct,
        fun kv member => acc.within kv (same.mem_iff.1 member)⟩
    · have distinct := (less.map Prod.fst).nodup_iff.1 acc.distinct
      rw [List.map_cons, List.nodup_cons] at distinct
      exact ⟨distinct.2,
        fun kv' member => acc.within kv' (less.mem_iff.2 (List.mem_cons_of_mem _ member))⟩
  obtain ⟨p', move, moved⟩ := migrateStep_eq_some stepped
  generalize at_ : s.pc t = p at move
  have others : ∀ u b kv, u ≠ t → s'.pc u = .stage b kv → s.m.migrateBuf u = m₀.nvm.data kv.2 :=
    fun u b kv other held => acc.buffers u b kv (pc_of_ne stepped other ▸ held)
  have here : s'.pc t = p' := by rw [moved, Function.update_self]
  generalize became : s'.m = m' at move
  cases move with
  | @read b kv =>
      refine ⟨by rw [became]; exact acc.data, account.1, account.2, fun u c kv' held => ?_⟩
      rw [became]
      by_cases mine : u = t
      · subst mine
        rw [here] at held
        cases held
        exact (Function.update_self ..).trans (congrFun acc.data kv.2)
      · exact (Function.update_of_ne (Fin.val_ne_of_ne mine) _ _).trans (others u c kv' mine held)
  | _ =>
      refine ⟨by rw [became]; exact acc.data, account.1, account.2, fun u c kv' held => ?_⟩
      rw [became]
      by_cases mine : u = t
      · subst mine
        rw [here] at held
        first
          | cases held
          | (split at held <;> cases held)
      · exact others u c kv' mine held

/-- A written entry stays as it was written. -/
theorem Accounted.settled (proper : (m₀.segment idx).hash.Proper)
    (distinct : ((m₀.segment idx).hash.entries.map Prod.fst).Nodup)
    (acc : Accounted idx m₀ s) {kv : MixKv} (entry : kv ∈ (m₀.segment idx).hash.entries)
    (written : kv ∉ pending idx s) (stepped : migrateStep idx s t = some s') :
    kv ∉ pending idx s' ∧ s'.m.ssd kv.1 = s.m.ssd kv.1 := by
  rcases pending_step (acc.proper proper) stepped with ⟨ssd, same⟩ | ⟨b, kv', -, ssd, less⟩
  · exact ⟨fun member => written (same.mem_iff.1 member), by rw [ssd]⟩
  · have member' : kv' ∈ pending idx s := less.mem_iff.2 List.mem_cons_self
    have other : kv' ≠ kv := fun e => written (e ▸ member')
    have blocks : kv.1 ≠ kv'.1 := fun e =>
      other (List.inj_on_of_nodup_map distinct (acc.within _ member') entry e.symm)
    exact ⟨fun member => written (less.mem_iff.2 (List.mem_cons_of_mem _ member)),
      by rw [ssd, Function.update_of_ne blocks]⟩

/-! ## When nobody stages between -/

/-- Thread `t` does not stage over another thread's different block. -/
def Apart (s : MigrateState T) (t : Fin T) : Prop :=
  ∀ b kv, s.pc t = .stage b kv → ∀ u b' kv', s.pc u = .flush b' kv' →
    s.m.nvm.data kv'.2 = s.m.nvm.data kv.2

/-- The staging slot and the SSD have the right data. -/
structure Staged (idx : SegIdx) (m₀ : Machine) (s : MigrateState T) : Prop where
  staging : ∀ t b kv, s.pc t = .flush b kv →
    s.m.memalignSrc (stagingBlock MIGRATE_STAGING_SLOT) = m₀.nvm.data kv.2
  written : ∀ kv ∈ (m₀.segment idx).hash.entries, kv ∉ pending idx s →
    s.m.ssd kv.1 = m₀.nvm.data kv.2

theorem Staged.start (m : Machine) : Staged idx m (migrationStart m T) where
  staging := fun t b kv at_ => by cases at_
  written := fun kv member absent => by rw [pending_start] at absent; exact absurd member absent

theorem Staged.step (proper : (m₀.segment idx).hash.Proper)
    (distinct : ((m₀.segment idx).hash.entries.map Prod.fst).Nodup)
    (acc : Accounted idx m₀ s) (staged : Staged idx m₀ s) (apart : Apart s t)
    (stepped : migrateStep idx s t = some s') : Staged idx m₀ s' where
  staging := by
    obtain ⟨p', move, moved⟩ := migrateStep_eq_some stepped
    generalize at_ : s.pc t = p at move
    have here : s'.pc t = p' := by rw [moved, Function.update_self]
    have others : ∀ u b kv, u ≠ t → s'.pc u = .flush b kv →
        s.m.memalignSrc (stagingBlock MIGRATE_STAGING_SLOT) = m₀.nvm.data kv.2 :=
      fun u b kv other held => staged.staging u b kv (pc_of_ne stepped other ▸ held)
    generalize became : s'.m = m' at move
    intro u c kv' held
    cases move with
    | @stage b kv =>
        rw [ssdWriteStage_one, Function.update_self, acc.buffers t b kv at_, ← acc.data]
        by_cases mine : u = t
        · subst mine
          rw [here] at held
          cases held
          rfl
        · exact (apart b kv at_ u c kv' (pc_of_ne stepped mine ▸ held)).symm
    | _ =>
        by_cases mine : u = t
        · subst mine
          rw [here] at held
          first
            | cases held
            | (split at held <;> cases held)
        · exact others u c kv' mine held
  written := by
    intro kv entry absent
    by_cases before : kv ∈ pending idx s
    · rcases pending_step (acc.proper proper) stepped with ⟨-, same⟩ | ⟨b, kv', at_, ssd, less⟩
      · exact absurd (same.mem_iff.2 before) absent
      · have : kv = kv' := by
          rcases List.mem_cons.1 (less.mem_iff.1 before) with here | rest
          · exact here
          · exact absurd rest absent
        subst this
        rw [ssd, Function.update_self, staged.staging t b kv at_]
    · rw [(acc.settled proper distinct entry before stepped).2]
      exact staged.written kv entry before

end Runs

end Mixdk
