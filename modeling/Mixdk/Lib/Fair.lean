/-
# Lib.Fair -- what a fair schedule brings about

A schedule is an endless list of labels, tried one after another; a label that is not
enabled when its turn comes leaves the state as it is (`attempt`).  It is fair to the labels
of `F` when each of them comes up again and again.

`Progress` is a way to show that every fair schedule leads to a goal, with a weight that
no step makes larger.  In a state short of the goal some label of `F` helps: while the
weight stays as it is the label goes on helping, and trying it makes the weight smaller
after a number of tries that is known beforehand (a thread that polls has to look into its
empty queues before it finds the full one).  `Progress.eventually` is the induction, on the
weight and then on the tries.
-/
import Mixdk.Lib.Transition
import Mathlib.Data.Nat.Find

namespace Transition

set_option autoImplicit false

universe u v

variable {σ : Type u} {α : Type v}

/-- Try a label. -/
def attempt (step : σ → α → Option σ) (s : σ) (a : α) : σ := (step s a).getD s

/-- The state after the first `n` labels of the schedule. -/
def attempts (step : σ → α → Option σ) (s : σ) (sched : Nat → α) : Nat → σ
  | 0 => s
  | n + 1 => attempt step (attempts step s sched n) (sched n)

/-- Each label of `F` comes up again and again. -/
def FairTo (F : α → Prop) (sched : Nat → α) : Prop := ∀ a, F a → ∀ n, ∃ m, n ≤ m ∧ sched m = a

variable {step : σ → α → Option σ} {sched : Nat → α} {s t : σ}

theorem attempt_of_some {a : α} (stepped : step s a = some t) : attempt step s a = t := by
  rw [attempt, stepped, Option.getD_some]

theorem attempt_of_none {a : α} (blocked : step s a = none) : attempt step s a = s := by
  rw [attempt, blocked, Option.getD_none]

/-- What a schedule reaches, a run reaches. -/
theorem attempts_exec (step : σ → α → Option σ) (s : σ) (sched : Nat → α) (n : Nat) :
    ∃ as, exec step s as = some (attempts step s sched n) := by
  induction n with
  | zero => exact ⟨[], rfl⟩
  | succ n ih =>
      obtain ⟨as, ran⟩ := ih
      rw [attempts]
      cases stepped : step (attempts step s sched n) (sched n) with
      | none => exact ⟨as, by rw [attempt_of_none stepped, ran]⟩
      | some t =>
          have last : exec step (attempts step s sched n) [sched n] = some t :=
            exec_cons_eq_some.2 ⟨t, stepped, rfl⟩
          exact ⟨as ++ [sched n], by rw [attempt_of_some stepped, exec_trans ran last]⟩

theorem attempts_add (step : σ → α → Option σ) (s : σ) (sched : Nat → α) (n k : Nat) :
    attempts step s sched (n + k) =
      attempts step (attempts step s sched n) (fun i => sched (n + i)) k := by
  induction k with
  | zero => rfl
  | succ k ih => rw [← Nat.add_assoc, attempts, ih, attempts]

theorem FairTo.later {F : α → Prop} (fair : FairTo F sched) (n : Nat) :
    FairTo F fun i => sched (n + i) := by
  intro a there k
  obtain ⟨m, after, at_⟩ := fair a there (n + k)
  refine ⟨m - n, by omega, ?_⟩
  have same : n + (m - n) = m := by omega
  exact (congrArg sched same).trans at_

/-- A fair schedule comes to each label, and to none of its turns before the first. -/
theorem FairTo.first {F : α → Prop} (fair : FairTo F sched) {a : α} (there : F a) :
    ∃ n, sched n = a ∧ ∀ i < n, sched i ≠ a := by
  classical
  have some_ : ∃ n, sched n = a := by
    obtain ⟨n, -, at_⟩ := fair a there 0
    exact ⟨n, at_⟩
  exact ⟨Nat.find some_, Nat.find_spec some_, fun i before => Nat.find_min some_ before⟩

/-- What it takes for every fair schedule to lead to `goal`: `Helps s a k` says that in `s` the
label `a` makes the weight smaller when it is tried for the `k + 1`st time, at the latest. -/
structure Progress (step : σ → α → Option σ) (F : α → Prop) (I goal : σ → Prop)
    (weight : σ → Nat) (Helps : σ → α → Nat → Prop) : Prop where
  preserved : ∀ s a t, I s → step s a = some t → I t
  helper : ∀ s, I s → goal s ∨ ∃ a k, F a ∧ Helps s a k
  /-- Other labels leave the helper in place, or are helpful themselves. -/
  others : ∀ s a k b t, I s → Helps s a k → b ≠ a → step s b = some t →
    weight t < weight s ∨ weight t ≤ weight s ∧ Helps t a k
  helps : ∀ s a k, I s → Helps s a k → goal s ∨ ∃ t, step s a = some t ∧
    (weight t < weight s ∨ weight t ≤ weight s ∧ ∃ j < k, Helps t a j)

namespace Progress

variable {F : α → Prop} {I goal : σ → Prop} {weight : σ → Nat} {Helps : σ → α → Nat → Prop}

theorem inv (progress : Progress step F I goal weight Helps) (start : I s) (n : Nat) :
    I (attempts step s sched n) := by
  obtain ⟨as, ran⟩ := attempts_exec step s sched n
  exact exec_invariant progress.preserved ran start

/-- Until the helper's turn comes, either the weight gets smaller or the helper stays. -/
theorem wait (progress : Progress step F I goal weight Helps) (start : I s) {a : α} {k : Nat}
    (help : Helps s a k) (n : Nat) (before : ∀ i < n, sched i ≠ a) :
    (∃ m, weight (attempts step s sched m) < weight s) ∨
      weight (attempts step s sched n) ≤ weight s ∧ Helps (attempts step s sched n) a k := by
  induction n with
  | zero => exact .inr ⟨Nat.le_refl _, help⟩
  | succ n ih =>
      rcases ih fun i below => before i (by omega) with early | ⟨light, helps⟩
      · exact .inl early
      cases stepped : step (attempts step s sched n) (sched n) with
      | none =>
          rw [attempts, attempt_of_none stepped]
          exact .inr ⟨light, helps⟩
      | some t =>
          have next : attempts step s sched (n + 1) = t := attempt_of_some stepped
          rcases progress.others _ a k _ t (progress.inv start n) helps (before n (by omega))
            stepped with less | ⟨same, still⟩
          · exact .inl ⟨n + 1, next ▸ Nat.lt_of_lt_of_le less light⟩
          · exact .inr ⟨next ▸ Nat.le_trans same light, next ▸ still⟩

/-- With a helper the schedule comes to the goal, or to a smaller weight. -/
theorem lighter (progress : Progress step F I goal weight Helps) (start : I s)
    (fair : FairTo F sched) {a : α} {k : Nat} (there : F a) (help : Helps s a k) :
    ∃ n, goal (attempts step s sched n) ∨ weight (attempts step s sched n) < weight s := by
  induction k using Nat.strongRecOn generalizing s sched with
  | ind k ih =>
      obtain ⟨n, turn, before⟩ := fair.first there
      rcases progress.wait start help n before with ⟨m, early⟩ | ⟨light, helps⟩
      · exact ⟨m, .inr early⟩
      rcases progress.helps _ a k (progress.inv start n) helps with there | ⟨t, stepped, result⟩
      · exact ⟨n, .inl there⟩
      have next : attempts step s sched (n + 1) = t := by
        rw [attempts, turn, attempt_of_some stepped]
      rcases result with less | ⟨same, j, fewer, still⟩
      · exact ⟨n + 1, .inr (next ▸ Nat.lt_of_lt_of_le less light)⟩
      · have inv : I t := next ▸ progress.inv start (n + 1)
        obtain ⟨m, reached⟩ := ih j fewer inv (fair.later (n + 1)) still
        refine ⟨n + 1 + m, ?_⟩
        rw [attempts_add, next]
        exact reached.imp_right fun less =>
          Nat.lt_of_lt_of_le less (Nat.le_trans same light)

/-- **Every fair schedule leads to the goal.** -/
theorem eventually (progress : Progress step F I goal weight Helps) (start : I s)
    (fair : FairTo F sched) : ∃ n, goal (attempts step s sched n) := by
  induction size : weight s using Nat.strongRecOn generalizing s sched with
  | ind w ih =>
      rcases progress.helper s start with here | ⟨a, k, there, help⟩
      · exact ⟨0, here⟩
      obtain ⟨n, reached | less⟩ := progress.lighter start fair there help
      · exact ⟨n, reached⟩
      · obtain ⟨m, reached⟩ := ih _ (size ▸ less) (progress.inv start n) (fair.later n) rfl
        exact ⟨n + m, by rwa [attempts_add]⟩

/-- What no step leaves, no schedule leaves. -/
theorem stays (progress : Progress step F I goal weight Helps) {Q : σ → Prop}
    (kept : ∀ s a t, I s → Q s → step s a = some t → Q t) (start : I s) {n : Nat}
    (reached : Q (attempts step s sched n)) {m : Nat} (after : n ≤ m) :
    Q (attempts step s sched m) := by
  obtain ⟨k, rfl⟩ := Nat.exists_eq_add_of_le after
  rw [attempts_add]
  obtain ⟨as, ran⟩ := attempts_exec step (attempts step s sched n) (fun i => sched (n + i)) k
  exact (exec_invariant (I := fun s => I s ∧ Q s)
    (fun s a t ⟨inv, there⟩ stepped =>
      ⟨progress.preserved s a t inv stepped, kept s a t inv there stepped⟩)
    ran ⟨progress.inv start n, reached⟩).2

end Progress

/-! ## Turn and turn about -/

/-- One label after another, and then from the first on again. -/
def roundRobin (labels : List α) (some_ : 0 < labels.length) (n : Nat) : α :=
  labels.get ⟨n % labels.length, Nat.mod_lt n some_⟩

theorem roundRobin_fair {F : α → Prop} {labels : List α} (some_ : 0 < labels.length)
    (all : ∀ a, F a → a ∈ labels) : FairTo F (roundRobin labels some_) := by
  intro a there n
  obtain ⟨i, rfl⟩ := List.get_of_mem (all a there)
  have position : (n * labels.length + i) % labels.length = i := by
    rw [Nat.mul_comm, Nat.mul_add_mod, Nat.mod_eq_of_lt i.isLt]
  refine ⟨n * labels.length + i, ?_, ?_⟩
  · exact Nat.le_trans (Nat.le_mul_of_pos_right n some_) (Nat.le_add_right _ _)
  · simp only [roundRobin, position]

end Transition
