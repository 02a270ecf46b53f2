/-
# Durability.Midway -- a migration that has not come to its end

What has become of the SSD and of the records at any point of a migration in which no
thread stages over another (`midway`).  The pairs whose records are invalid by now are
on the SSD, and a block of the SSD is as it was, or the one its entry has in the buffer.
-/
import Mixdk.Index.Agreement

namespace Mixdk

open scoped List
open Transition

set_option autoImplicit false

section

variable {T : Nat} {idx : SegIdx} {m₀ : Machine} {s s' : MigrateState T} {fin : List MixKv}

theorem count_flatMap_le {α β : Type} [BEq β] {f g h : α → List β} {x : β}
    (each : ∀ a, (f a).count x + (g a).count x ≤ (h a).count x) (as : List α) :
    (as.flatMap f).count x + (as.flatMap g).count x ≤ (as.flatMap h).count x := by
  induction as with
  | nil => exact Nat.le_refl 0
  | cons a as ih =>
      have here := each a
      simp only [List.flatMap_cons, List.count_append]
      omega

/-- No pair is behind its `pwrite` in one thread and before it in another. -/
theorem Drained.cleared_not_pending (inv : Drained idx m₀ s fin)
    (distinct : ((m₀.segment idx).hash.entries.map Prod.fst).Nodup) {kv : MixKv}
    (gone : kv ∈ fin ++ overThreads MigratePc.cleared s.pc) : kv ∉ pending idx s := by
  intro waits
  have once := List.nodup_iff_count_le_one.1 (List.Nodup.of_map _ distinct) kv
  have all := inv.entries.count_eq kv
  have held : (overThreads MigratePc.cleared s.pc).count kv +
      (overThreads MigratePc.unflushed s.pc).count kv ≤
        (overThreads MigratePc.inflight s.pc).count kv := by
    apply count_flatMap_le
    intro t
    cases s.pc t <;> simp [MigratePc.cleared, MigratePc.unflushed, MigratePc.inflight]
  have behind := List.count_pos_iff.2 gone
  have before := List.count_pos_iff.2 waits
  simp only [pending, List.count_append] at all behind before
  omega

/-- A block of the SSD is as it was, or its entry's. -/
def OldOrMoved (idx : SegIdx) (m₀ m : Machine) : Prop :=
  ∀ b, m.ssd b = m₀.ssd b ∨
    ∃ v, (b, v) ∈ (m₀.segment idx).hash.entries ∧ m.ssd b = m₀.nvm.data v

theorem OldOrMoved.step (proper : (m₀.segment idx).hash.Proper) (acc : Accounted idx m₀ s)
    (staged : Staged idx m₀ s) (each : OldOrMoved idx m₀ s.m) {t : Fin T}
    (stepped : migrateStep idx s t = some s') : OldOrMoved idx m₀ s'.m := by
  intro b
  rcases pending_step (acc.proper proper) stepped with ⟨ssd, -⟩ | ⟨c, kv, at_, ssd, less⟩
  · rw [ssd]
    exact each b
  · by_cases here : b = kv.1
    · subst here
      right
      refine ⟨kv.2, acc.within kv (less.mem_iff.2 List.mem_cons_self), ?_⟩
      rw [ssd, Function.update_self, staged.staging t c kv at_]
    · rw [ssd, Function.update_of_ne here]
      exact each b

/-- A migration on its way: `gone` are the pairs whose records are invalid by now. -/
structure Midway (idx : SegIdx) (m₀ m : Machine) (gone : MixKv → Prop) : Prop where
  entry : ∀ kv, gone kv → kv ∈ (m₀.segment idx).hash.entries
  moved : ∀ kv, gone kv → m.ssd kv.1 = m₀.nvm.data kv.2
  names : ∀ b k, RecordNames m.nvm b k ↔ ¬ (∃ kv, gone kv ∧ kv.2 = b) ∧ RecordNames m₀.nvm b k
  ssd : OldOrMoved idx m₀ m
  same : SameOutside idx m₀ m

/-- **What a migration in which no thread stages over another has done so far.** -/
theorem midway {sched : List (Fin T)} (ok : Drainable (m₀.segment idx).hash)
    (run : Run (migrateStep idx) Apart (migrationStart m₀ T) sched s) :
    ∃ gone, Midway idx m₀ s.m gone ∧
      (0 < T → (∀ t, s.pc t = .done) → ∀ kv ∈ (m₀.segment idx).hash.entries, gone kv) := by
  have held := run.invariant
    (I := fun r => Draining idx m₀ r ∧ Staged idx m₀ r ∧ OldOrMoved idx m₀ r.m)
    (fun r t r' ⟨draining, staged, each⟩ met stepped =>
      ⟨draining.step ok stepped,
        staged.step ok.proper ok.distinct draining.accounted met stepped,
        each.step ok.proper draining.accounted staged stepped⟩)
    ⟨.start m₀ ok, .start m₀, fun _ => .inl rfl⟩
  obtain ⟨⟨⟨fin, drained⟩, acc⟩, staged, each⟩ := held
  have entry : ∀ kv ∈ fin ++ overThreads MigratePc.cleared s.pc,
      kv ∈ (m₀.segment idx).hash.entries := by
    intro kv gone
    rcases List.mem_append.1 gone with finished | cleared
    · exact drained.entries.mem_iff.2 (List.mem_append_left _ (List.mem_append_left _ finished))
    · obtain ⟨t, cleared⟩ := mem_overThreads.1 cleared
      refine drained.mem_of_inflight (t := t) ?_
      cases at_ : s.pc t <;> simp [at_, MigratePc.cleared, MigratePc.inflight] at cleared ⊢
      exact cleared
  refine ⟨fun kv => kv ∈ fin ++ overThreads MigratePc.cleared s.pc, ⟨entry, ?_, ?_, each,
    drained.same⟩, ?_⟩
  · intro kv gone
    exact staged.written kv (entry kv gone) (drained.cleared_not_pending ok.distinct gone)
  · intro b k
    exact recordNames_cleared (drained.metas b)
  · intro pos ends kv there
    exact List.mem_append_left _ ((drained.finished pos ends).mem_iff.1 there)

end

end Mixdk
