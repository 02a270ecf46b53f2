/-
# Migration.Partition -- who gets which entry

The calls of `mix_hash_get_entry_by_idx` in a drain by any number of threads, in any
interleaving: what the calls hand out is what leaves the table (`handed_perm`), so at
the end of all walks every entry has been handed out once, to one thread
(`drain_partition`).  The keys need not be distinct, nor in the buckets they hash to.
-/
import Mixdk.Migration.Drain

namespace Mixdk

open scoped List
open Transition

set_option autoImplicit false

/-- The pair a call hands to the thread that goes from `p` to `p'`. -/
def handedPair : MigratePc → MigratePc → Option MixKv
  | .pop _, .read _ kv => some kv
  | _, _ => none

/-- The pairs handed out while the threads interleave as `sched` says, each with its thread. -/
def handed {T : Nat} (idx : SegIdx) : MigrateState T → List (Fin T) → List (Fin T × MixKv)
  | _, [] => []
  | s, t :: sched =>
      match migrateStep idx s t with
      | none => []
      | some s' => ((handedPair (s.pc t) (s'.pc t)).map (Prod.mk t)).toList ++ handed idx s' sched

section

variable {T : Nat} {idx : SegIdx} {m : Machine} {s s' : MigrateState T} {t : Fin T}

/-- What a step hands out leaves the table. -/
theorem table_step (proper : (s.m.segment idx).hash.Proper)
    (stepped : migrateStep idx s t = some s') :
    (s.m.segment idx).hash.entries.Perm
      ((handedPair (s.pc t) (s'.pc t)).toList ++ (s'.m.segment idx).hash.entries) := by
  obtain ⟨p', move, moved⟩ := migrateStep_eq_some stepped
  have here : s'.pc t = p' := by rw [moved, Function.update_self]
  rw [here]
  generalize s.pc t = p at move
  generalize became : s'.m = m' at move
  cases move with
  | @take b kv rest inside nonempty head =>
      have ok := proper kv (mem_entries_of_chain inside head)
      have off : (s.m.segment idx).hash.entries.Perm (kv :: (s'.m.segment idx).hash.entries) := by
        rw [became, Machine.segment_setSegment]
        exact entries_setNode_perm inside head
      rw [if_neg (not_or.2 ok)]
      rw [became] at off
      exact off
  | count =>
      show _ ~ ((Machine.setSegment ..).segment idx).hash.entries
      rw [Machine.segment_setSegment]
  | next | leave | read | stage | flush | clear => exact List.Perm.refl _

/-- What is left in the table was in it before. -/
theorem Hash.Proper.step (proper : (s.m.segment idx).hash.Proper)
    (stepped : migrateStep idx s t = some s') : (s'.m.segment idx).hash.Proper :=
  fun kv there =>
    proper kv ((table_step proper stepped).mem_iff.2 (List.mem_append_right _ there))

/-- **All that was handed out, and what is left, is what was there.** -/
theorem handed_perm {sched : List (Fin T)} (proper : (s.m.segment idx).hash.Proper)
    (ran : exec (migrateStep idx) s sched = some s') :
    (s.m.segment idx).hash.entries.Perm
      ((handed idx s sched).map Prod.snd ++ (s'.m.segment idx).hash.entries) := by
  induction sched generalizing s with
  | nil =>
      cases ran
      exact List.Perm.refl _
  | cons t sched ih =>
      obtain ⟨next, stepped, rest⟩ := exec_cons_eq_some.1 ran
      have first := table_step proper stepped
      have later := ih (proper.step stepped) rest
      have here : (((handedPair (s.pc t) (next.pc t)).map (Prod.mk t)).toList.map Prod.snd) =
          (handedPair (s.pc t) (next.pc t)).toList := by
        cases handedPair (s.pc t) (next.pc t) <;> rfl
      simp only [handed, stepped, List.map_append, here, List.append_assoc]
      exact first.trans (later.append_left _)

/-- **A drain is an exact partition.**  The threads have taken every entry once, the buckets are
empty, and the counter is down by the number of entries. -/
theorem drain_partition (some_thread : 0 < T) {sched : List (Fin T)}
    (lens : ∀ i < (m.segment idx).hash.hashSize,
      ((m.segment idx).hash.hashNodes i).len.toInt = ((m.segment idx).hash.chain i).length)
    (proper : (m.segment idx).hash.Proper)
    (ran : exec (migrateStep idx) (migrationStart m T) sched = some s)
    (ends : ∀ t, s.pc t = .done) :
    ((handed idx (migrationStart m T) sched).map Prod.snd).Perm (m.segment idx).hash.entries ∧
      (∀ i < (m.segment idx).hash.hashSize, (s.m.segment idx).hash.chain i = [] ∧
        ((s.m.segment idx).hash.hashNodes i).len = 0) ∧
      (s.m.segment idx).usedBlockNum =
        (m.segment idx).usedBlockNum - (m.segment idx).hash.entries.length := by
  obtain ⟨fin, drained⟩ := drained_of_exec lens proper ran
  have empty := drained.entries_nil some_thread ends
  refine ⟨?_, ?_, ?_⟩
  · have out := handed_perm (s := migrationStart m T) proper ran
    rw [empty, List.append_nil] at out
    exact out.symm
  · intro i below
    have chain := drained.chain_nil some_thread ends below
    refine ⟨chain, ?_⟩
    refine Int32.toInt_inj.1 ?_
    rw [drained.lens i below, chain]
    rfl
  · rw [(drained.finished some_thread ends).length_eq]
    exact drained.used

end

/-! ## One entry -/

/-- A machine whose segment `idx` has two buckets, the second with one entry. -/
def twoBuckets (idx : SegIdx) : Machine :=
  let hash := (mixHashInit 2).setNode 1 { len := 1, list := [(5, 3)] }
  (Machine.blank (mixMetadataInit 32) ⟨fun _ _ => 0, fun _ => ⟨0, 0, 0, 0⟩⟩).setSegment idx
    { hash := hash, bitmap := mixBitmapInit 8, usedBlockNum := 1 }

/-- Three threads drain it; the second one gets the entry. -/
theorem twoBuckets_partition : ∃ s : MigrateState 3, ∃ sched,
    exec (migrateStep 0) (migrationStart (twoBuckets 0) 3) sched = some s ∧
      ((handed 0 (migrationStart (twoBuckets 0) 3) sched).map Prod.snd).Perm
        ((twoBuckets 0).segment 0).hash.entries := by
  have run : (exec (migrateStep 0) (migrationStart (twoBuckets 0) 3)
      [0, 1, 2, 1, 0, 1, 1, 1, 1, 1, 1]).any (fun s => decide (∀ t, s.pc t = .done)) = true := by
    decide +kernel
  obtain ⟨s, ran, ends⟩ := (Option.any_eq_true _ _).1 run
  have lens : ∀ i < ((twoBuckets 0).segment 0).hash.hashSize,
      (((twoBuckets 0).segment 0).hash.hashNodes i).len.toInt =
        (((twoBuckets 0).segment 0).hash.chain i).length := by
    decide +kernel
  have proper : ∀ kv ∈ ((twoBuckets 0).segment 0).hash.entries,
      kv.1 ≠ NO_ENTRY ∧ kv.2 ≠ NO_ENTRY := by
    decide +kernel
  exact ⟨s, _, ran, (drain_partition (by decide) lens proper ran (of_decide_eq_true ends)).1⟩

end Mixdk
