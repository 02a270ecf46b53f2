/-
# Lib.Runs -- the maximal runs of a predicate on an interval

A scan over `[lo, hi)` that keeps the start of the run it is in, and gives the run out when
it ends, gives out the maximal runs of the predicate in order (`runsFrom_maximal`): each a
stretch on which the predicate holds, bounded on either side by a number where it fails or
by the end of the interval, and together all numbers where it holds.
-/
import Mathlib.Data.List.Basic
import Mathlib.Tactic.Common

namespace Runs

set_option autoImplicit false

/-- `runs`, pairs of a start and a length, are the maximal runs of `P` on `[lo, hi)`. -/
structure Maximal (P : Nat → Prop) (lo hi : Nat) (runs : List (Nat × Nat)) : Prop where
  nonempty : ∀ r ∈ runs, 0 < r.2
  inside : ∀ r ∈ runs, lo ≤ r.1 ∧ r.1 + r.2 ≤ hi
  holds : ∀ r ∈ runs, ∀ i, r.1 ≤ i → i < r.1 + r.2 → P i
  before : ∀ r ∈ runs, r.1 = lo ∨ ¬ P (r.1 - 1)
  after : ∀ r ∈ runs, r.1 + r.2 = hi ∨ ¬ P (r.1 + r.2)
  covers : ∀ i, lo ≤ i → i < hi → P i → ∃ r ∈ runs, r.1 ≤ i ∧ i < r.1 + r.2
  ordered : runs.Pairwise fun r s => r.1 + r.2 < s.1

/-- The scan of `n` numbers from `i` on, within the run that began at `start` if any. -/
def runsFrom (p : Nat → Bool) : Nat → Nat → Option Nat → List (Nat × Nat)
  | 0, _, none => []
  | 0, i, some start => [(start, i - start)]
  | n + 1, i, start =>
      if p i then runsFrom p n (i + 1) (some (start.getD i))
      else
        match start with
        | none => runsFrom p n (i + 1) none
        | some start => (start, i - start) :: runsFrom p n (i + 1) none

namespace Maximal

variable {P : Nat → Prop} {lo hi i start : Nat} {runs : List (Nat × Nat)}

theorem empty (P : Nat → Prop) (lo : Nat) : Maximal P lo lo [] where
  nonempty := by simp
  inside := by simp
  holds := by simp
  before := by simp
  after := by simp
  covers := by intro i _ _; omega
  ordered := .nil

/-- A number outside the predicate comes first. -/
theorem skip (maximal : Maximal P (i + 1) hi runs) (fails : ¬ P i) : Maximal P i hi runs where
  nonempty := maximal.nonempty
  inside := fun r member => by
    have := maximal.inside r member
    omega
  holds := maximal.holds
  before := fun r member => by
    rcases maximal.before r member with first | bounded
    · exact .inr (by rwa [first, Nat.add_sub_cancel])
    · exact .inr bounded
  after := maximal.after
  covers := fun j low high holds => by
    have other : j ≠ i := fun same => fails (same ▸ holds)
    exact maximal.covers j (by omega) high holds
  ordered := maximal.ordered

/-- A run that reaches the end. -/
theorem last (holds : ∀ j, start ≤ j → j < hi → P j) (some_ : start < hi) :
    Maximal P start hi [(start, hi - start)] where
  nonempty := by simp only [List.mem_singleton, forall_eq]; omega
  inside := by simp only [List.mem_singleton, forall_eq]; omega
  holds := by
    simp only [List.mem_singleton, forall_eq]
    exact fun j low high => holds j low (by omega)
  before := by simp
  after := by simp only [List.mem_singleton, forall_eq]; exact .inl (by omega)
  covers := fun j low high _ => ⟨_, List.mem_singleton_self _, low, by omega⟩
  ordered := List.pairwise_singleton ..

/-- A run that ends before `i`, where the predicate fails, comes first. -/
theorem close (maximal : Maximal P (i + 1) hi runs) (holds : ∀ j, start ≤ j → j < i → P j)
    (some_ : start < i) (below : i < hi) (fails : ¬ P i) :
    Maximal P start hi ((start, i - start) :: runs) where
  nonempty := List.forall_mem_cons.2 ⟨by omega, maximal.nonempty⟩
  inside := List.forall_mem_cons.2 ⟨by omega, fun r member => by
    have := maximal.inside r member
    omega⟩
  holds := List.forall_mem_cons.2 ⟨fun j low high => holds j low (by omega), maximal.holds⟩
  before := List.forall_mem_cons.2 ⟨.inl rfl, fun r member => .inr <| by
    rcases maximal.before r member with first | bounded
    · rwa [first, Nat.add_sub_cancel]
    · exact bounded⟩
  after := List.forall_mem_cons.2
    ⟨.inr (by rwa [Nat.add_sub_cancel' (Nat.le_of_lt some_)]), maximal.after⟩
  covers := fun j low high holds => by
    by_cases early : j < i
    · exact ⟨_, List.mem_cons_self, low, by omega⟩
    · have other : j ≠ i := fun same => fails (same ▸ holds)
      obtain ⟨r, member, here⟩ := maximal.covers j (by omega) high holds
      exact ⟨r, List.mem_cons_of_mem _ member, here⟩
  ordered := List.pairwise_cons.2 ⟨fun r member => by
    have := maximal.inside r member
    omega, maximal.ordered⟩

end Maximal

/-- **The scan gives out the maximal runs.** -/
theorem runsFrom_maximal (p : Nat → Bool) (n i : Nat) :
    Maximal (fun j => p j = true) i (i + n) (runsFrom p n i none) ∧
      ∀ start < i, (∀ j, start ≤ j → j < i → p j = true) →
        Maximal (fun j => p j = true) start (i + n) (runsFrom p n i (some start)) := by
  induction n generalizing i with
  | zero => exact ⟨.empty _ i, fun start some_ holds => .last holds some_⟩
  | succ n ih =>
      obtain ⟨closed, opened⟩ := ih (i + 1)
      have ends : i + 1 + n = i + (n + 1) := by omega
      rw [ends] at closed opened
      by_cases here : p i = true
      · simp only [runsFrom, if_pos here]
        refine ⟨opened i (Nat.lt_succ_self i) fun j low high => ?_, fun start some_ holds =>
          opened start (Nat.lt_succ_of_lt some_) fun j low high => ?_⟩
        · have same : j = i := by omega
          exact same ▸ here
        · by_cases last : j = i
          · exact last ▸ here
          · exact holds j low (by omega)
      · simp only [runsFrom, if_neg here]
        exact ⟨closed.skip here, fun start some_ holds =>
          closed.close holds some_ (by omega) here⟩

end Runs
