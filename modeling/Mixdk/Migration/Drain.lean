/-
# Migration.Drain -- what the migrate threads do to a segment

The invariant of the drain (`Drained`), for any number of threads and any
interleaving.  The entries the segment had at the start are, up to order, those
already finished, those a thread has popped and not yet finished, and those still
in the table; the counter, the buffer records and the tables follow from the
first list.  When all threads are at the end of their walk, everything is
finished (`Drained.finished`).

Nothing here depends on how the `memcpy` and the `pwrite` of different threads
overlap; what reaches the SSD does, and is the subject of
`Migration.Staging`.
-/
import Mixdk.Core.Migrate
import Mathlib.Data.List.FinRange

namespace Mixdk

open scoped List
open Transition

set_option autoImplicit false

namespace MigratePc

/-- The pair a thread has popped and not finished. -/
def inflight : MigratePc → List MixKv
  | .pop _ | .done => []
  | .read _ kv | .stage _ kv | .flush _ kv | .clear _ kv | .count _ kv => [kv]

/-- The pair whose buffer record a thread has invalidated without counting it yet. -/
def cleared : MigratePc → List MixKv
  | .count _ kv => [kv]
  | _ => []

/-- The bucket a thread is in, none once it has left the table. -/
def bucket : MigratePc → Option Nat
  | .pop b | .read b _ | .stage b _ | .flush b _ | .clear b _ | .count b _ => some b
  | .done => none

/-- Bucket `i` lies behind the thread's point, as far as its walk goes. -/
def passed (p : MigratePc) (i : Nat) : Prop :=
  match p.bucket with
  | some b => i < b
  | none => True

end MigratePc

/-! ## What one action can be -/

/-- The actions of thread `t` on a table without end markers. -/
inductive MigrateMove {T : Nat} (idx : SegIdx) (t : Fin T) (m : Machine) :
    MigratePc → Machine → MigratePc → Prop
  | next {b : Nat} (inside : b < (m.segment idx).hash.hashSize)
      (empty : ¬ 0 < ((m.segment idx).hash.hashNodes b).len) :
      MigrateMove idx t m (.pop b) m (.pop (b + T))
  | leave {b : Nat} (outside : ¬ b < (m.segment idx).hash.hashSize) :
      MigrateMove idx t m (.pop b) m .done
  | take {b : Nat} {kv : MixKv} {rest : List MixKv}
      (inside : b < (m.segment idx).hash.hashSize)
      (nonempty : 0 < ((m.segment idx).hash.hashNodes b).len)
      (head : (m.segment idx).hash.chain b = kv :: rest) :
      MigrateMove idx t m (.pop b)
        (m.setSegment idx { m.segment idx with
          hash := (m.segment idx).hash.setNode b
            { len := ((m.segment idx).hash.hashNodes b).len - 1, list := rest } })
        (if kv.1 = NO_ENTRY ∨ kv.2 = NO_ENTRY then .pop (b + T) else .read b kv)
  | read {b : Nat} {kv : MixKv} :
      MigrateMove idx t m (.read b kv)
        { m with migrateBuf := Function.update m.migrateBuf t (m.nvm.data kv.2) } (.stage b kv)
  | stage {b : Nat} {kv : MixKv} :
      MigrateMove idx t m (.stage b kv)
        (m.ssdWriteStage (fun _ => m.migrateBuf t) 1 MIGRATE_STAGING_SLOT) (.flush b kv)
  | flush {b : Nat} {kv : MixKv} :
      MigrateMove idx t m (.flush b kv) (m.ssdWriteFlush 1 kv.1 MIGRATE_STAGING_SLOT)
        (.clear b kv)
  | clear {b : Nat} {kv : MixKv} :
      MigrateMove idx t m (.clear b kv) { m with nvm := mixBufferClear m.nvm kv.2 } (.count b kv)
  | count {b : Nat} {kv : MixKv} :
      MigrateMove idx t m (.count b kv)
        (m.setSegment idx { m.segment idx with
          usedBlockNum := (m.segment idx).usedBlockNum - 1 })
        (.pop b)

theorem migrateMove_of_action {T : Nat} {idx : SegIdx} {t : Fin T} {m m' : Machine}
    {p p' : MigratePc} (acted : migrateAction idx t m p = some (m', p')) :
    MigrateMove idx t m p m' p' := by
  cases p with
  | pop b =>
      simp only [migrateAction] at acted
      split at acted
      · rename_i inside
        obtain ⟨⟨kv, hash⟩, popped, acted⟩ := Option.map_eq_some_iff.1 acted
        rcases getEntryByIdx_eq_some popped with ⟨empty, rfl, rfl⟩ | ⟨nonempty, rest, head, rfl⟩
        · simp only [true_or, if_true] at acted
          obtain ⟨rfl, rfl⟩ := Prod.mk.inj acted
          rw [show m.setSegment idx { m.segment idx with hash := (m.segment idx).hash } = m from
            m.setSegment_same idx]
          exact .next inside empty
        · have move := MigrateMove.take (T := T) (t := t) inside nonempty head
          by_cases marker : kv.1 = NO_ENTRY ∨ kv.2 = NO_ENTRY
          · simp only [marker, if_true] at acted
            rw [if_pos marker] at move
            obtain ⟨rfl, rfl⟩ := Prod.mk.inj acted
            exact move
          · simp only [marker, if_false] at acted
            rw [if_neg marker] at move
            obtain ⟨rfl, rfl⟩ := Prod.mk.inj acted
            exact move
      · rename_i outside
        cases acted
        exact .leave outside
  | read b kv => cases acted; exact .read
  | stage b kv => cases acted; exact .stage
  | flush b kv => cases acted; exact .flush
  | clear b kv => cases acted; exact .clear
  | count b kv => cases acted; exact .count
  | done => cases acted

theorem migrateStep_eq_some {T : Nat} {idx : SegIdx} {s s' : MigrateState T} {t : Fin T}
    (stepped : migrateStep idx s t = some s') :
    ∃ p', MigrateMove idx t s.m (s.pc t) s'.m p' ∧ s'.pc = Function.update s.pc t p' := by
  simp only [migrateStep, Option.map_eq_some_iff] at stepped
  obtain ⟨⟨m', p'⟩, acted, rfl⟩ := stepped
  exact ⟨p', migrateMove_of_action acted, rfl⟩

/-! ## Collecting over the threads -/

section Threads

variable {T : Nat}

/-- What `f` says of the threads, one after another. -/
def overThreads (f : MigratePc → List MixKv) (pc : Fin T → MigratePc) : List MixKv :=
  (List.finRange T).flatMap fun t => f (pc t)

theorem mem_overThreads {f : MigratePc → List MixKv} {pc : Fin T → MigratePc} {kv : MixKv} :
    kv ∈ overThreads f pc ↔ ∃ t, kv ∈ f (pc t) := by
  simp [overThreads, List.mem_flatMap]

/-- A thread that moves trades what was said of it. -/
theorem overThreads_update (f : MigratePc → List MixKv) (pc : Fin T → MigratePc) (t : Fin T)
    (p : MigratePc) :
    (overThreads f (Function.update pc t p) ++ f (pc t)).Perm (overThreads f pc ++ f p) := by
  have composed : (fun u => f (Function.update pc t p u)) =
      Function.update (fun u => f (pc u)) t (f p) := by
    funext u
    by_cases same : u = t
    · subst same; simp
    · simp [Function.update_of_ne same]
  unfold overThreads
  rw [composed]
  exact ChainTable.flatMap_update_perm _ _ (List.nodup_finRange T) (List.mem_finRange t)

end Threads

/-! ## The invariant -/

/-- `m` and `m₀` agree on everything a migration of segment `idx` leaves alone. -/
structure SameOutside (idx : SegIdx) (m₀ m : Machine) : Prop where
  perBlockNum : m.md.perBlockNum = m₀.md.perBlockNum
  segments : ∀ j ≠ idx, m.segment j = m₀.segment j
  bitmap : (m.segment idx).bitmap = (m₀.segment idx).bitmap
  data : m.nvm.data = m₀.nvm.data
  mem : m.mem = m₀.mem
  memalignDst : m.memalignDst = m₀.memalignDst
  ret : m.ret = m₀.ret
  completedNvm : m.completedNvmWriteBlockNum = m₀.completedNvmWriteBlockNum
  completedSsd : m.completedSsdWriteBlockNum = m₀.completedSsdWriteBlockNum

theorem SameOutside.refl (idx : SegIdx) (m : Machine) : SameOutside idx m m :=
  ⟨rfl, fun _ _ => rfl, rfl, rfl, rfl, rfl, rfl, rfl, rfl⟩

/-- A change of the buffer records, the SSD, the staging area or the copy buffers. -/
theorem SameOutside.touch {idx : SegIdx} {m₀ m m' : Machine} (same : SameOutside idx m₀ m)
    (md : m'.md = m.md) (data : m'.nvm.data = m.nvm.data)
    (rest : (m'.mem, m'.memalignDst, m'.ret, m'.completedNvmWriteBlockNum,
        m'.completedSsdWriteBlockNum) =
      (m.mem, m.memalignDst, m.ret, m.completedNvmWriteBlockNum, m.completedSsdWriteBlockNum)) :
    SameOutside idx m₀ m' := by
  simp only [Prod.mk.injEq] at rest
  obtain ⟨mem, dst, ret, nvm, ssd⟩ := rest
  have segment : ∀ j, m'.segment j = m.segment j := fun j => by simp only [Machine.segment, md]
  exact ⟨md ▸ same.perBlockNum, fun j ne => (segment j).trans (same.segments j ne),
    segment idx ▸ same.bitmap, data.trans same.data, mem.trans same.mem, dst.trans same.memalignDst,
    ret.trans same.ret, nvm.trans same.completedNvm, ssd.trans same.completedSsd⟩

/-- A write to segment `idx` that keeps its bitmap. -/
theorem SameOutside.setSegment {idx : SegIdx} {m₀ m : Machine} (same : SameOutside idx m₀ m)
    {seg : Segment} (bitmap : seg.bitmap = (m.segment idx).bitmap) :
    SameOutside idx m₀ (m.setSegment idx seg) where
  perBlockNum := same.perBlockNum
  segments := fun j ne => by
    rw [← same.segments j ne]
    exact Metadata.setSegment_of_ne m.md seg ne
  bitmap := by rw [Machine.segment_setSegment, bitmap, same.bitmap]
  data := same.data
  mem := same.mem
  memalignDst := same.memalignDst
  ret := same.ret
  completedNvm := same.completedNvm
  completedSsd := same.completedSsd

/-- No entry of the table looks like the end marker of a drain. -/
def Hash.Proper (h : Hash) : Prop := ∀ kv ∈ h.entries, kv.1 ≠ NO_ENTRY ∧ kv.2 ≠ NO_ENTRY

/-- Thread `t` is in a bucket of its own, and those of its buckets it has passed are empty. -/
def Walked (T n : Nat) (chain : Nat → List MixKv) (t : Nat) (p : MigratePc) : Prop :=
  (∀ b, p.bucket = some b → b % T = t) ∧ ∀ i < n, i % T = t → p.passed i → chain i = []

/-- The state of a drain that began in `m₀` and has finished the pairs `fin`. -/
structure Drained {T : Nat} (idx : SegIdx) (m₀ : Machine) (s : MigrateState T)
    (fin : List MixKv) : Prop where
  size : (s.m.segment idx).hash.hashSize = (m₀.segment idx).hash.hashSize
  lens : ∀ i < (m₀.segment idx).hash.hashSize,
    ((s.m.segment idx).hash.hashNodes i).len.toInt = ((s.m.segment idx).hash.chain i).length
  entries : (m₀.segment idx).hash.entries.Perm
    (fin ++ overThreads MigratePc.inflight s.pc ++ (s.m.segment idx).hash.entries)
  used : (s.m.segment idx).usedBlockNum = (m₀.segment idx).usedBlockNum - fin.length
  metas : ∀ b, s.m.nvm.metas b =
    if ∃ kv ∈ fin ++ overThreads MigratePc.cleared s.pc, kv.2 = b
    then { m₀.nvm.metas b with status := 0 } else m₀.nvm.metas b
  walk : ∀ t : Fin T, Walked T (m₀.segment idx).hash.hashSize (s.m.segment idx).hash.chain t (s.pc t)
  ssd : ∀ b, b ∉ (m₀.segment idx).hash.entries.map Prod.fst → s.m.ssd b = m₀.ssd b
  same : SameOutside idx m₀ s.m

theorem overThreads_start (f : MigratePc → List MixKv) (pops : ∀ b, f (.pop b) = []) (T : Nat)
    (m : Machine) : overThreads f (migrationStart m T).pc = [] := by
  simp [overThreads, migrationStart, pops]

theorem Drained.start {T : Nat} (idx : SegIdx) (m : Machine)
    (lens : ∀ i < (m.segment idx).hash.hashSize,
      ((m.segment idx).hash.hashNodes i).len.toInt = ((m.segment idx).hash.chain i).length) :
    Drained idx m (migrationStart m T) [] where
  size := rfl
  lens := lens
  entries := by rw [overThreads_start _ (fun _ => rfl)]; exact List.Perm.refl _
  used := by simp [migrationStart]
  metas := fun b => by rw [overThreads_start _ (fun _ => rfl)]; simp [migrationStart]
  walk := fun t => by
    have small := Nat.mod_eq_of_lt t.isLt
    refine ⟨fun b at_ => ?_, fun i _ mine behind => ?_⟩
    · simp only [migrationStart, MigratePc.bucket, Option.some.injEq] at at_
      rw [← at_, small]
    · simp only [migrationStart, MigratePc.passed, MigratePc.bucket] at behind
      rw [Nat.mod_eq_of_lt (by omega)] at mine
      omega
  ssd := fun _ _ => rfl
  same := .refl idx m

/-! ## Every action keeps the invariant -/

theorem forall_update {T : Nat} {P : Fin T → MigratePc → Prop} {pc : Fin T → MigratePc}
    (all : ∀ u, P u (pc u)) {t : Fin T} {p : MigratePc} (new : P t p) :
    ∀ u, P u (Function.update pc t p u) := by
  intro u
  by_cases same : u = t
  · subst same; rwa [Function.update_self]
  · rw [Function.update_of_ne same]; exact all u

/-- Moving on inside a bucket. -/
theorem Walked.stay {T n t : Nat} {chain : Nat → List MixKv} {p p' : MigratePc}
    (walked : Walked T n chain t p) (stay : p'.bucket = p.bucket) : Walked T n chain t p' := by
  simp only [Walked, MigratePc.passed, stay] at walked ⊢
  exact walked

/-- Moving on to the thread's next bucket when the present one is empty. -/
theorem Walked.next {T n t b : Nat} {chain : Nat → List MixKv}
    (walked : Walked T n chain t (.pop b)) (empty : b < n → chain b = []) :
    Walked T n chain t (.pop (b + T)) := by
  have here := walked.1 b rfl
  refine ⟨fun c at_ => ?_, fun i below mine behind => ?_⟩
  · simp only [MigratePc.bucket, Option.some.injEq] at at_
    rw [← at_, Nat.add_mod_right, here]
  · simp only [MigratePc.passed, MigratePc.bucket] at behind
    by_cases before : i < b
    · exact walked.2 i below mine before
    · have at_ : i = b := by
        have apart : (i - b) % T = 0 := Nat.sub_mod_eq_zero_of_mod_eq (mine.trans here.symm)
        rw [Nat.mod_eq_of_lt (by omega)] at apart
        omega
      exact at_ ▸ empty (at_ ▸ below)

section Step

variable {T : Nat} {idx : SegIdx} {m₀ : Machine} {s s' : MigrateState T} {fin : List MixKv}

/-- What a move by `t` does to the lists of pairs, from what it does to `t`'s own. -/
theorem overThreads_move {f : MigratePc → List MixKv} {t : Fin T} {p' : MigratePc}
    (moved : s'.pc = Function.update s.pc t p') :
    (overThreads f s'.pc ++ f (s.pc t)).Perm (overThreads f s.pc ++ f p') := by
  rw [moved]
  exact overThreads_update f s.pc t p'

theorem overThreads_keep {f : MigratePc → List MixKv} {t : Fin T} {p' : MigratePc}
    (moved : s'.pc = Function.update s.pc t p') (kept : f p' = f (s.pc t)) :
    (overThreads f s'.pc).Perm (overThreads f s.pc) := by
  have held := overThreads_move (f := f) moved
  rwa [kept, List.perm_append_right_iff] at held

/-- A move that invalidates no record and leaves the invalidated pairs as they were. -/
theorem Drained.metas_keep (inv : Drained idx m₀ s fin) {fin' : List MixKv}
    (members : ∀ x, x ∈ fin' ++ overThreads MigratePc.cleared s'.pc ↔
      x ∈ fin ++ overThreads MigratePc.cleared s.pc)
    (metas : s'.m.nvm.metas = s.m.nvm.metas) (b : Nat) : s'.m.nvm.metas b =
      if ∃ kv ∈ fin' ++ overThreads MigratePc.cleared s'.pc, kv.2 = b
      then { m₀.nvm.metas b with status := 0 } else m₀.nvm.metas b := by
  rw [metas, inv.metas b]
  simp only [members]

/-- A move that changes neither the table nor the counter of the segment, nor what the
thread has popped or invalidated. -/
theorem Drained.quiet (inv : Drained idx m₀ s fin) {t : Fin T} {p' : MigratePc}
    (moved : s'.pc = Function.update s.pc t p')
    (segment : s'.m.segment idx = s.m.segment idx)
    (inflight : p'.inflight = (s.pc t).inflight) (cleared : p'.cleared = (s.pc t).cleared)
    (walked : Walked T (m₀.segment idx).hash.hashSize (s.m.segment idx).hash.chain t p')
    (metas : s'.m.nvm.metas = s.m.nvm.metas)
    (ssd : ∀ b, b ∉ (m₀.segment idx).hash.entries.map Prod.fst → s'.m.ssd b = s.m.ssd b)
    (same : SameOutside idx m₀ s'.m) : Drained idx m₀ s' fin where
  size := by rw [segment, inv.size]
  lens := by rw [segment]; exact inv.lens
  entries := by
    have held := overThreads_keep moved inflight
    rw [segment]
    exact inv.entries.trans ((held.symm.append_left _).append_right _)
  used := by rw [segment, inv.used]
  metas :=
    inv.metas_keep (fun _ => ((overThreads_keep moved cleared).append_left fin).mem_iff) metas
  walk := by
    rw [moved, segment]
    exact forall_update (P := fun u p => Walked T _ _ u p) inv.walk walked
  ssd := fun b outside => (ssd b outside).trans (inv.ssd b outside)
  same := same

/-- Popping the head of a bucket takes it out of the table. -/
theorem entries_setNode_perm {h : Hash} {b : Nat} {kv : MixKv} {rest : List MixKv} {n : Int32}
    (inside : b < h.hashSize) (head : h.chain b = kv :: rest) :
    h.entries.Perm (kv :: (h.setNode b { len := n, list := rest }).entries) := by
  unfold Hash.entries
  rw [chain_setNode, setNode_hashSize]
  exact ChainTable.pairs_take_perm _ kv inside (head ▸ List.Perm.refl _)

/-- The pair at the head of a nonempty bucket, popped. -/
theorem Drained.take (inv : Drained idx m₀ s fin) {t : Fin T} {b : Nat} {kv : MixKv}
    {rest : List MixKv} (at_ : s.pc t = .pop b)
    (inside : b < (s.m.segment idx).hash.hashSize)
    (head : (s.m.segment idx).hash.chain b = kv :: rest)
    (popped : s'.m = s.m.setSegment idx { s.m.segment idx with
      hash := (s.m.segment idx).hash.setNode b
        { len := ((s.m.segment idx).hash.hashNodes b).len - 1, list := rest } })
    (moved : s'.pc = Function.update s.pc t (.read b kv)) : Drained idx m₀ s' fin where
  size := by rw [popped, Machine.segment_setSegment, setNode_hashSize, inv.size]
  lens := by
    rw [popped, Machine.segment_setSegment]
    have counted := inv.lens b (inv.size ▸ inside)
    rw [head, List.length_cons] at counted
    rw [← inv.size]
    refine lens_setNode ?_ (inv.size ▸ inv.lens)
    rw [toInt_sub_one (by omega), counted]
    simp
  entries := by
    have held := overThreads_move (f := MigratePc.inflight) moved
    rw [at_] at held
    have off : (s.m.segment idx).hash.entries.Perm ([kv] ++ (s'.m.segment idx).hash.entries) := by
      rw [popped, Machine.segment_setSegment]
      exact entries_setNode_perm inside head
    refine List.perm_iff_count.2 fun x => ?_
    have h₁ := inv.entries.count_eq x
    have h₂ := held.count_eq x
    have h₃ := off.count_eq x
    simp only [List.count_append, MigratePc.inflight, List.count_nil] at h₁ h₂ h₃ ⊢
    omega
  used := by rw [popped, Machine.segment_setSegment]; exact inv.used
  metas := by
    have held := overThreads_keep (f := MigratePc.cleared) moved (at_ ▸ rfl)
    exact inv.metas_keep (fun _ => (held.append_left fin).mem_iff) (by rw [popped]; rfl)
  walk := by
    have shrinks : ∀ i, (s.m.segment idx).hash.chain i = [] →
        (s'.m.segment idx).hash.chain i = [] := by
      intro i empty
      rw [popped, Machine.segment_setSegment, chain_setNode]
      by_cases here : i = b
      · subst here; rw [head] at empty; cases empty
      · rw [Function.update_of_ne here, empty]
    have walked : ∀ u : Fin T, Walked T (m₀.segment idx).hash.hashSize
        (s'.m.segment idx).hash.chain u (s.pc u) := fun u =>
      ⟨(inv.walk u).1, fun i below mine behind => shrinks i ((inv.walk u).2 i below mine behind)⟩
    rw [moved]
    refine forall_update (P := fun u p => Walked T _ _ u p) walked ((walked t).stay ?_)
    rw [at_]
    rfl
  ssd := fun c outside => by rw [← inv.ssd c outside, popped]; rfl
  same := by
    rw [popped]
    exact inv.same.setSegment rfl

/-- A finished pair leaves the thread and is counted. -/
theorem Drained.count (inv : Drained idx m₀ s fin) {t : Fin T} {b : Nat} {kv : MixKv}
    (at_ : s.pc t = .count b kv)
    (counted : s'.m = s.m.setSegment idx { s.m.segment idx with
      usedBlockNum := (s.m.segment idx).usedBlockNum - 1 })
    (moved : s'.pc = Function.update s.pc t (.pop b)) : Drained idx m₀ s' (kv :: fin) where
  size := by rw [counted, Machine.segment_setSegment, inv.size]
  lens := by rw [counted, Machine.segment_setSegment]; exact inv.lens
  entries := by
    have held := overThreads_move (f := MigratePc.inflight) moved
    rw [at_] at held
    rw [counted, Machine.segment_setSegment, ← List.singleton_append]
    refine List.perm_iff_count.2 fun x => ?_
    have h₁ := inv.entries.count_eq x
    have h₂ := held.count_eq x
    simp only [List.count_append, MigratePc.inflight, List.count_nil] at h₁ h₂ ⊢
    omega
  used := by
    rw [counted, Machine.segment_setSegment, List.length_cons]
    simp only [inv.used]
    omega
  metas := by
    have held := overThreads_move (f := MigratePc.cleared) moved
    rw [at_] at held
    simp only [MigratePc.cleared, List.append_nil] at held
    refine inv.metas_keep (fun x => ?_) (by rw [counted]; rfl)
    have := held.mem_iff (a := x)
    simp only [List.mem_append, List.mem_cons] at this ⊢
    simp only [List.not_mem_nil, or_false] at this
    tauto
  walk := by
    rw [moved, counted, Machine.segment_setSegment]
    refine forall_update (P := fun u p => Walked T _ _ u p) inv.walk ((inv.walk t).stay ?_)
    rw [at_]
    rfl
  ssd := fun c outside => by rw [← inv.ssd c outside, counted]; rfl
  same := by
    rw [counted]
    exact inv.same.setSegment rfl

/-- The record of a written pair, invalidated. -/
theorem Drained.clear (inv : Drained idx m₀ s fin) {t : Fin T} {b : Nat} {kv : MixKv}
    (at_ : s.pc t = .clear b kv)
    (invalidated : s'.m = { s.m with nvm := mixBufferClear s.m.nvm kv.2 })
    (moved : s'.pc = Function.update s.pc t (.count b kv)) : Drained idx m₀ s' fin where
  size := by rw [← inv.size, invalidated]; rfl
  lens := by rw [invalidated]; exact inv.lens
  entries := by
    have held := overThreads_keep (f := MigratePc.inflight) moved (at_ ▸ rfl)
    rw [invalidated]
    exact inv.entries.trans ((held.symm.append_left _).append_right _)
  used := by rw [← inv.used, invalidated]; rfl
  metas := fun c => by
    have held := overThreads_move (f := MigratePc.cleared) moved
    rw [at_] at held
    simp only [MigratePc.cleared, List.append_nil] at held
    have members : ∀ x, x ∈ fin ++ overThreads MigratePc.cleared s'.pc ↔
        x = kv ∨ x ∈ fin ++ overThreads MigratePc.cleared s.pc := by
      intro x
      have := held.mem_iff (a := x)
      simp only [List.mem_append, List.mem_singleton] at this ⊢
      tauto
    simp only [members, exists_eq_or_imp]
    rw [invalidated]
    by_cases here : kv.2 = c
    · subst here
      simp only [mixBufferClear, Function.update_self, true_or, if_true, inv.metas kv.2]
      split <;> rfl
    · simp only [mixBufferClear, Function.update_of_ne (Ne.symm here), here, false_or, inv.metas c]
  walk := by
    rw [moved, invalidated]
    refine forall_update (P := fun u p => Walked T _ _ u p) inv.walk ((inv.walk t).stay ?_)
    rw [at_]
    rfl
  ssd := fun c outside => by rw [← inv.ssd c outside, invalidated]
  same := by
    rw [invalidated]
    exact inv.same.touch rfl rfl rfl

theorem mem_entries_of_chain {h : Hash} {b : Nat} {kv : MixKv} {rest : List MixKv}
    (inside : b < h.hashSize) (head : h.chain b = kv :: rest) : kv ∈ h.entries :=
  ChainTable.mem_pairs.2 ⟨b, inside, head ▸ List.mem_cons_self⟩

/-- What is still in the table or in a thread's hands was there at the start. -/
theorem Drained.mem_of_table (inv : Drained idx m₀ s fin) {kv : MixKv}
    (there : kv ∈ (s.m.segment idx).hash.entries) : kv ∈ (m₀.segment idx).hash.entries :=
  inv.entries.mem_iff.2 (List.mem_append_right _ there)

theorem Drained.mem_of_inflight (inv : Drained idx m₀ s fin) {t : Fin T} {kv : MixKv}
    (held : kv ∈ (s.pc t).inflight) : kv ∈ (m₀.segment idx).hash.entries :=
  inv.entries.mem_iff.2 (List.mem_append_left _
    (List.mem_append_right _ (mem_overThreads.2 ⟨t, held⟩)))

theorem ssdWriteFlush_one (m : Machine) (k slot : Nat) :
    (m.ssdWriteFlush 1 k slot).ssd = Function.update m.ssd k (m.memalignSrc (stagingBlock slot)) := by
  funext b
  simp only [Machine.ssdWriteFlush, setBlocks, Function.update_apply]
  by_cases here : b = k
  · subst here; simp
  · rw [if_neg (show ¬ (k ≤ b ∧ b < k + 1) by omega), if_neg here]

theorem ssdWriteStage_one (m : Machine) (f : Nat → Block) (slot : Nat) :
    (m.ssdWriteStage f 1 slot).memalignSrc =
      Function.update m.memalignSrc (stagingBlock slot) (f 0) := by
  funext b
  simp only [Machine.ssdWriteStage, setBlocks, Function.update_apply]
  by_cases here : b = stagingBlock slot
  · subst here; simp
  · rw [if_neg (show ¬ (stagingBlock slot ≤ b ∧ b < stagingBlock slot + 1) by omega), if_neg here]

/-- **Every action of a migrate thread keeps the invariant.** -/
theorem Drained.step (proper : (m₀.segment idx).hash.Proper) (inv : Drained idx m₀ s fin)
    {t : Fin T} (stepped : migrateStep idx s t = some s') : ∃ fin', Drained idx m₀ s' fin' := by
  obtain ⟨p', move, moved⟩ := migrateStep_eq_some stepped
  generalize at_ : s.pc t = p at move
  generalize became : s'.m = m' at move
  cases move with
  | @next b inside empty =>
      have bare : (s.m.segment idx).hash.chain b = [] := by
        rw [int32_pos_iff, inv.lens b (inv.size ▸ inside)] at empty
        exact List.eq_nil_of_length_eq_zero (by omega)
      have walked := (at_ ▸ inv.walk t).next fun _ => bare
      refine ⟨fin, inv.quiet moved (by rw [became]) ?_ ?_ walked (by rw [became])
        (fun _ _ => by rw [became]) (became ▸ inv.same)⟩ <;> rw [at_] <;> rfl
  | @leave b outside =>
      have walked : Walked T (m₀.segment idx).hash.hashSize (s.m.segment idx).hash.chain t
          .done := by
        have before := at_ ▸ inv.walk t
        refine ⟨fun c impossible => (by cases impossible), fun i below mine _ => ?_⟩
        have : i < b := by have := inv.size; omega
        exact before.2 i below mine this
      refine ⟨fin, inv.quiet moved (by rw [became]) ?_ ?_ walked (by rw [became])
        (fun _ _ => by rw [became]) (became ▸ inv.same)⟩ <;> rw [at_] <;> rfl
  | @take b kv rest inside nonempty head =>
      have there := proper kv (inv.mem_of_table (mem_entries_of_chain inside head))
      rw [if_neg (by tauto)] at moved
      exact ⟨fin, inv.take at_ inside head became moved⟩
  | @read b kv =>
      refine ⟨fin, inv.quiet moved (by rw [became]; rfl) ?_ ?_ ((inv.walk t).stay ?_)
        (by rw [became]) (fun _ _ => by rw [became]) ?_⟩
      · rw [at_]; rfl
      · rw [at_]; rfl
      · rw [at_]; rfl
      · exact became ▸ inv.same.touch rfl rfl rfl
  | @stage b kv =>
      refine ⟨fin, inv.quiet moved (by rw [became]; rfl) ?_ ?_ ((inv.walk t).stay ?_)
        (by rw [became]; rfl) (fun _ _ => by rw [became]; rfl) ?_⟩
      · rw [at_]; rfl
      · rw [at_]; rfl
      · rw [at_]; rfl
      · exact became ▸ inv.same.touch rfl rfl rfl
  | @flush b kv =>
      have held : kv ∈ (s.pc t).inflight := by rw [at_]; exact List.mem_singleton_self kv
      have key := List.mem_map_of_mem (f := Prod.fst) (inv.mem_of_inflight held)
      refine ⟨fin, inv.quiet moved (by rw [became]; rfl) ?_ ?_ ((inv.walk t).stay ?_)
        (by rw [became]; rfl) (fun c outside => ?_) ?_⟩
      · rw [at_]; rfl
      · rw [at_]; rfl
      · rw [at_]; rfl
      · rw [became, ssdWriteFlush_one, Function.update_of_ne]
        rintro rfl
        exact outside key
      · exact became ▸ inv.same.touch rfl rfl rfl
  | clear => exact ⟨fin, inv.clear at_ became moved⟩
  | @count b kv => exact ⟨kv :: fin, inv.count at_ became moved⟩

/-- The invariant holds all through a drain. -/
theorem drained_of_exec {m : Machine} {sched : List (Fin T)} {s : MigrateState T}
    (lens : ∀ i < (m.segment idx).hash.hashSize,
      ((m.segment idx).hash.hashNodes i).len.toInt = ((m.segment idx).hash.chain i).length)
    (proper : (m.segment idx).hash.Proper)
    (ran : exec (migrateStep idx) (migrationStart m T) sched = some s) :
    ∃ fin, Drained idx m s fin :=
  exec_invariant (I := fun s => ∃ fin, Drained idx m s fin)
    (fun _ _ _ ⟨_, inv⟩ stepped => inv.step proper stepped) ran ⟨[], .start idx m lens⟩

/-! ## The end of a drain -/

theorem overThreads_done {f : MigratePc → List MixKv} (done : f .done = [])
    (all : ∀ t, s.pc t = .done) : overThreads f s.pc = [] := by
  simp [overThreads, all, done]

/-- With every thread at its end, the buckets are empty. -/
theorem Drained.chain_nil (inv : Drained idx m₀ s fin) (pos : 0 < T)
    (all : ∀ t, s.pc t = .done) {i : Nat} (below : i < (m₀.segment idx).hash.hashSize) :
    (s.m.segment idx).hash.chain i = [] := by
  have walked := all ⟨i % T, Nat.mod_lt _ pos⟩ ▸ inv.walk ⟨i % T, Nat.mod_lt _ pos⟩
  exact walked.2 i below rfl trivial

theorem Drained.entries_nil (inv : Drained idx m₀ s fin) (pos : 0 < T)
    (all : ∀ t, s.pc t = .done) : (s.m.segment idx).hash.entries = [] := by
  refine List.eq_nil_iff_forall_not_mem.2 fun kv there => ?_
  obtain ⟨i, below, member⟩ := ChainTable.mem_pairs.1 there
  rw [inv.size] at below
  rw [inv.chain_nil pos all below] at member
  cases member

/-- With every thread at its end, every entry is finished. -/
theorem Drained.finished (inv : Drained idx m₀ s fin) (pos : 0 < T)
    (all : ∀ t, s.pc t = .done) : (m₀.segment idx).hash.entries.Perm fin := by
  have := inv.entries
  rwa [inv.entries_nil pos all, overThreads_done rfl all, List.append_nil, List.append_nil] at this

end Step

end Mixdk
