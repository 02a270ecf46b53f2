/-
# Lib.Lanes -- reordering operations that commute

Several threads, each with operations still to do.  `Lanes.runAll` carries a list
of operations out; `Lanes.settle` carries out what is left in all lanes, one lane
after the other.  Where operations of different lanes commute the order of the
lanes does not matter, so a thread that does one of its operations early changes
the state and what is left, but not where things end (`settle_take`), and a thread
that gets new operations adds them at the end of everything (`settle_append`).

For partial steps, two runs with the same labels in every lane lead to the same
state, whatever the interleaving (`exec_of_lanes`).
-/
import Mixdk.Lib.Transition
import Mixdk.Lib.ChainTable
import Mathlib.Logic.Function.Conjugate
import Mathlib.Data.List.Nodup

namespace Lanes

open Transition

set_option autoImplicit false

universe u v w

variable {σ : Type u} {α : Type v} {κ : Type w}

/-! ## Lists of operations -/

/-- Carry out the operations one after another. -/
def runAll (act : α → σ → σ) (s : σ) (ops : List α) : σ := ops.foldl (fun s a => act a s) s

section

variable {act : α → σ → σ}

@[simp] theorem runAll_nil (s : σ) : runAll act s [] = s := rfl

@[simp] theorem runAll_cons (s : σ) (a : α) (ops : List α) :
    runAll act s (a :: ops) = runAll act (act a s) ops := rfl

theorem runAll_append (s : σ) (xs ys : List α) :
    runAll act s (xs ++ ys) = runAll act (runAll act s xs) ys :=
  List.foldl_append ..

/-- A function that commutes with every operation can be applied first or last. -/
theorem runAll_comm {f : σ → σ} {ops : List α}
    (commutes : ∀ a ∈ ops, Function.Commute (act a) f) (s : σ) :
    runAll act (f s) ops = f (runAll act s ops) := by
  induction ops generalizing s with
  | nil => rfl
  | cons a ops ih =>
      rw [runAll_cons, runAll_cons, commutes a List.mem_cons_self s]
      apply ih
      intro b member
      exact commutes b (List.mem_cons_of_mem a member)

/-- An operation that commutes with everything before it can be done at once. -/
theorem runAll_pull {xs ys : List α} {e : α}
    (commutes : ∀ a ∈ xs, Function.Commute (act a) (act e)) (s : σ) :
    runAll act s (xs ++ e :: ys) = runAll act (act e s) (xs ++ ys) := by
  rw [runAll_append, runAll_append, runAll_cons, runAll_comm commutes]

theorem runAll_swap {xs ys : List α}
    (commutes : ∀ a ∈ xs, ∀ b ∈ ys, Function.Commute (act a) (act b)) (s : σ) :
    runAll act s (xs ++ ys) = runAll act s (ys ++ xs) := by
  induction ys generalizing s with
  | nil => rw [List.append_nil, List.nil_append]
  | cons b ys ih =>
      rw [runAll_pull (fun a member => commutes a member b List.mem_cons_self), ih]
      · rfl
      · intro a member c later
        exact commutes a member c (List.mem_cons_of_mem b later)

end

/-! ## Lanes -/

/-- What is left in the lanes, each element with its lane. -/
def inLanes (ks : List κ) (lanes : κ → List α) : List (κ × α) :=
  ks.flatMap fun k => (lanes k).map (Prod.mk k)

theorem mem_inLanes {ks : List κ} {lanes : κ → List α} {x : κ × α} :
    x ∈ inLanes ks lanes ↔ x.1 ∈ ks ∧ x.2 ∈ lanes x.1 := by
  obtain ⟨k, a⟩ := x
  simp [inLanes, List.mem_flatMap]

theorem inLanes_congr {ks : List κ} {lanes lanes' : κ → List α}
    (same : ∀ k ∈ ks, lanes k = lanes' k) : inLanes ks lanes = inLanes ks lanes' := by
  apply List.flatMap_congr
  intro k member
  rw [same k member]

/-- One lane stands in one place, whatever it holds. -/
theorem inLanes_update [DecidableEq κ] {ks : List κ} (nodup : ks.Nodup) {k : κ} (here : k ∈ ks)
    (lanes : κ → List α) :
    ∃ before after,
      (∀ ops, inLanes ks (Function.update lanes k ops) =
        before ++ (ops.map (Prod.mk k) ++ after)) ∧
      (∀ x ∈ before, x.1 ≠ k ∧ x.2 ∈ lanes x.1) ∧ ∀ x ∈ after, x.1 ≠ k ∧ x.2 ∈ lanes x.1 := by
  obtain ⟨xs, ys, rfl⟩ := List.append_of_mem here
  have apart := List.nodup_middle.1 nodup
  have notIn : k ∉ xs ++ ys := (List.nodup_cons.1 apart).1
  rw [List.mem_append, not_or] at notIn
  have others : ∀ zs : List κ, k ∉ zs → ∀ ops,
      inLanes zs (Function.update lanes k ops) = inLanes zs lanes := by
    intro zs outside ops
    apply inLanes_congr
    intro j member
    apply Function.update_of_ne
    rintro rfl
    exact outside member
  refine ⟨inLanes xs lanes, inLanes ys lanes, ?_, ?_, ?_⟩
  · intro ops
    rw [← others xs notIn.1 ops, ← others ys notIn.2 ops]
    simp [inLanes, List.flatMap_append]
  · intro x member
    obtain ⟨lane, there⟩ := mem_inLanes.1 member
    exact ⟨fun same => notIn.1 (same ▸ lane), there⟩
  · intro x member
    obtain ⟨lane, there⟩ := mem_inLanes.1 member
    exact ⟨fun same => notIn.2 (same ▸ lane), there⟩

/-- Carry out what is left in all lanes. -/
def settle (act : κ × α → σ → σ) (ks : List κ) (s : σ) (lanes : κ → List α) : σ :=
  runAll act s (inLanes ks lanes)

section

variable {act : κ × α → σ → σ} {ks : List κ} {lanes : κ → List α} {k : κ}

theorem settle_nil (empty : ∀ k ∈ ks, lanes k = []) (s : σ) : settle act ks s lanes = s := by
  have nothing : inLanes ks lanes = [] := by
    apply List.flatMap_eq_nil_iff.2
    intro k member
    rw [empty k member, List.map_nil]
  rw [settle, nothing, runAll_nil]

/-- Doing an operation of one lane early does not change where the lanes lead, if it commutes
with those before it in its lane and with the other lanes. -/
theorem settle_take [DecidableEq κ] (nodup : ks.Nodup) (here : k ∈ ks) {xs ys : List α} {e : α}
    (lane : lanes k = xs ++ e :: ys)
    (others : ∀ j, j ≠ k → ∀ x ∈ lanes j, Function.Commute (act (j, x)) (act (k, e)))
    (before : ∀ x ∈ xs, Function.Commute (act (k, x)) (act (k, e))) (s : σ) :
    settle act ks s lanes =
      settle act ks (act (k, e) s) (Function.update lanes k (xs ++ ys)) := by
  obtain ⟨first, last, place, inFirst, -⟩ := inLanes_update nodup here lanes
  have unchanged : lanes = Function.update lanes k (xs ++ e :: ys) := by
    rw [← lane, Function.update_eq_self]
  rw [settle, settle, place]
  nth_rewrite 1 [unchanged]
  rw [place, List.map_append, List.map_append, List.map_cons, List.append_assoc,
    List.append_assoc, List.cons_append, ← List.append_assoc, runAll_pull]
  · rw [List.append_assoc]
  · intro x member
    rcases List.mem_append.1 member with early | mine
    · obtain ⟨other, there⟩ := inFirst x early
      exact others x.1 other x.2 there
    · obtain ⟨y, inside, rfl⟩ := List.mem_map.1 mine
      exact before y inside

/-- New operations of one lane come after everything that was left. -/
theorem settle_append [DecidableEq κ] (nodup : ks.Nodup) (here : k ∈ ks) {new : List α}
    (others : ∀ j, j ≠ k → ∀ x ∈ lanes j, ∀ y ∈ new,
      Function.Commute (act (j, x)) (act (k, y))) (s : σ) :
    settle act ks s (Function.update lanes k (lanes k ++ new)) =
      runAll act (settle act ks s lanes) (new.map (Prod.mk k)) := by
  obtain ⟨first, last, place, -, inLast⟩ := inLanes_update nodup here lanes
  have unchanged : lanes = Function.update lanes k (lanes k) := by
    rw [Function.update_eq_self]
  have swapped : ∀ s, runAll act s (new.map (Prod.mk k) ++ last) =
      runAll act s (last ++ new.map (Prod.mk k)) := by
    intro s
    apply runAll_swap
    intro x mine y later
    obtain ⟨e, inside, rfl⟩ := List.mem_map.1 mine
    obtain ⟨other, there⟩ := inLast y later
    exact (others y.1 other y.2 there e inside).symm
  rw [settle, settle, place, List.map_append]
  nth_rewrite 2 [unchanged]
  rw [place, List.append_assoc, ← List.append_assoc first, runAll_append, swapped,
    ← runAll_append, ← runAll_append, List.append_assoc, List.append_assoc, List.append_assoc]

end

/-! ## Interleavings of partial steps -/

section

variable {step : σ → α → Option σ} {cls : α → κ} {I : σ → Prop}
  {Good : α → Prop} {Apart : α → α → Prop}

/-- A label that can be swapped with everything before it can be taken first. -/
theorem exec_front
    (preserved : ∀ s a t, I s → Good a → step s a = some t → I t)
    (swap : ∀ s a b t, I s → Good a → Good b → Apart b a → cls a ≠ cls b →
      exec step s [a, b] = some t → exec step s [b, a] = some t)
    {xs ys : List α} {b : α} (goodHere : Good b) (good : ∀ a ∈ xs, Good a)
    (apart : ∀ a ∈ xs, Apart b a) (other : ∀ a ∈ xs, cls a ≠ cls b) {s t : σ} (start : I s)
    (ran : exec step s (xs ++ b :: ys) = some t) : exec step s (b :: (xs ++ ys)) = some t := by
  induction xs generalizing s with
  | nil => exact ran
  | cons a xs ih =>
      obtain ⟨m, stepped, rest⟩ := exec_cons_eq_some.1 ran
      have front := ih (fun c member => good c (List.mem_cons_of_mem a member))
        (fun c member => apart c (List.mem_cons_of_mem a member))
        (fun c member => other c (List.mem_cons_of_mem a member))
        (preserved s a m start (good a List.mem_cons_self) stepped) rest
      obtain ⟨n, second, rest⟩ := exec_cons_eq_some.1 front
      have both : exec step s [a, b] = some n :=
        exec_cons_eq_some.2 ⟨m, stepped, exec_cons_eq_some.2 ⟨n, second, rfl⟩⟩
      have swapped := swap s a b n start (good a List.mem_cons_self) goodHere
        (apart a List.mem_cons_self) (other a List.mem_cons_self) both
      exact exec_trans swapped rest

/-- **Two interleavings of the same lanes lead to the same state**, if labels of different
lanes can be swapped wherever the invariant holds. -/
theorem exec_of_lanes [DecidableEq κ]
    (preserved : ∀ s a t, I s → Good a → step s a = some t → I t)
    (swap : ∀ s a b t, I s → Good a → Good b → Apart b a → cls a ≠ cls b →
      exec step s [a, b] = some t → exec step s [b, a] = some t)
    {as bs : List α} (good : ∀ b ∈ bs, Good b) (apart : bs.Pairwise Apart)
    (lanes : ∀ k, as.filter (fun a => cls a = k) = bs.filter (fun a => cls a = k))
    {s t : σ} (start : I s) (ran : exec step s as = some t) : exec step s bs = some t := by
  have member_iff : ∀ {as bs : List α},
      (∀ k, as.filter (fun a => cls a = k) = bs.filter (fun a => cls a = k)) →
      ∀ a ∈ as, a ∈ bs := by
    intro as bs lanes a member
    have kept : a ∈ as.filter (fun c => cls c = cls a) :=
      List.mem_filter.2 ⟨member, decide_eq_true rfl⟩
    rw [lanes] at kept
    exact (List.mem_filter.1 kept).1
  induction bs generalizing as s with
  | nil =>
      have none : as = [] := by
        apply List.eq_nil_iff_forall_not_mem.2
        intro a member
        cases member_iff lanes a member
      rw [none] at ran
      exact ran
  | cons b bs ih =>
      have first : as.filter (fun a => cls a = cls b) = b :: bs.filter (fun a => cls a = cls b) := by
        rw [lanes]
        exact List.filter_cons_of_pos (decide_eq_true rfl)
      obtain ⟨xs, ys, rfl, others, -, rest⟩ := List.filter_eq_cons_iff.1 first
      have elsewhere : ∀ a ∈ xs, cls a ≠ cls b := by
        intro a member same
        exact others a member (decide_eq_true same)
      have later : ∀ a ∈ xs, a ∈ bs := by
        intro a member
        have there := member_iff lanes a (List.mem_append_left _ member)
        rcases List.mem_cons.1 there with rfl | there
        · exact absurd rfl (elsewhere a member)
        · exact there
      have goodHere : Good b := good b List.mem_cons_self
      obtain ⟨apartHere, apartLater⟩ := List.pairwise_cons.1 apart
      have front := exec_front preserved swap goodHere
        (fun a member => good a (List.mem_cons_of_mem b (later a member)))
        (fun a member => apartHere a (later a member)) elsewhere start ran
      obtain ⟨m, stepped, ran'⟩ := exec_cons_eq_some.1 front
      refine exec_cons_eq_some.2 ⟨m, stepped, ih ?_ apartLater ?_ ?_ ran'⟩
      · exact fun a member => good a (List.mem_cons_of_mem b member)
      · intro k
        have whole := lanes k
        rw [List.filter_append] at whole ⊢
        by_cases same : cls b = k
        · subst same
          have nothing : xs.filter (fun a => cls a = cls b) = [] := by
            apply List.filter_eq_nil_iff.2
            intro a member
            exact others a member
          rw [nothing, List.nil_append]
          exact rest
        · rwa [List.filter_cons_of_neg (by simpa using same),
            List.filter_cons_of_neg (by simpa using same)] at whole
      · exact preserved s b m start goodHere stepped

/-- The same for guarded steps. -/
theorem run_of_lanes [DecidableEq κ] (cls : α → κ) (I : σ → Prop) (Good : α → Prop)
    (Apart : α → α → Prop) {guard : σ → α → Prop}
    (preserved : ∀ s a t, I s → Good a → step s a = some t → I t)
    (swap : ∀ s a b t, I s → Good a → Good b → Apart b a → cls a ≠ cls b →
      Run step guard s [a, b] t → Run step guard s [b, a] t)
    {as bs : List α} (good : ∀ b ∈ bs, Good b) (apart : bs.Pairwise Apart)
    (lanes : ∀ k, as.filter (fun a => cls a = k) = bs.filter (fun a => cls a = k))
    {s t : σ} (start : I s) (ran : Run step guard s as t) : Run step guard s bs t := by
  classical
  let check (s : σ) (a : α) : Bool := decide (guard s a)
  have complete : ∀ s a, guard s a → check s a = true := fun _ _ => decide_eq_true
  have sound : ∀ s a, check s a = true → guard s a := fun _ _ => of_decide_eq_true
  refine Run.of_checked sound (exec_of_lanes ?_ ?_ good apart lanes start (ran.checked complete))
  · intro s a t inv goodHere stepped
    split at stepped
    next => exact preserved s a t inv goodHere stepped
    next => cases stepped
  · intro s a b t inv here there separate other both
    exact (swap s a b t inv here there separate other (Run.of_checked sound both)).checked complete

end

/-! ## A list and its lanes -/

/-- A list is its lanes one after another, up to the order. -/
theorem perm_lanes [DecidableEq κ] {ks : List κ} (nodup : ks.Nodup) (cls : α → κ) {xs : List α}
    (inside : ∀ a ∈ xs, cls a ∈ ks) :
    xs.Perm (ks.flatMap fun k => xs.filter fun a => cls a = k) := by
  induction xs with
  | nil => exact .of_eq (List.flatMap_eq_nil_iff.2 fun _ _ => rfl).symm
  | cons a xs ih =>
      obtain ⟨here, later⟩ := List.forall_mem_cons.1 inside
      let lanes (k : κ) : List α := xs.filter fun a => cls a = k
      have longer : (fun k => (a :: xs).filter fun a => cls a = k) =
          Function.update lanes (cls a) (a :: lanes (cls a)) := by
        funext k
        rw [Function.update_apply]
        split
        next same =>
          rw [same]
          exact List.filter_cons_of_pos (decide_eq_true rfl)
        next other =>
          exact List.filter_cons_of_neg (by simpa using Ne.symm other)
      rw [longer]
      have traded := ChainTable.flatMap_update_perm lanes (a :: lanes (cls a)) nodup here
      have middle : (ks.flatMap lanes ++ a :: lanes (cls a)).Perm
          ((a :: ks.flatMap lanes) ++ lanes (cls a)) := List.perm_middle
      have whole := (List.perm_append_right_iff _).1 (traded.trans middle)
      exact ((ih later).cons a).trans whole.symm

end Lanes
