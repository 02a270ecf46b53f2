/-
# Lib.CyclicSearch -- the first position, going round, where a predicate fails

`cyclicFind p n fuel pos` tests `pos`, `pos + 1`, ... modulo `n` and stops at the
first position where `p` fails.  Started below `n`, `n` tests visit every
position once, so `cyclicFind p n n pos = none` says that `p` holds everywhere
and an unbounded search would go round for ever (`cyclicFind_none_iff`).

`First p n pos z` says that `z` is that position.  Searches from 0 and from `k` meet the
same one just when one of the two parts before and from `k` has none (`first_same_iff`).
-/
import Mathlib.Tactic.Common
import Mathlib.Data.Nat.ModEq

namespace CyclicSearch

set_option autoImplicit false

def cyclicFind (p : Nat → Bool) (n : Nat) : Nat → Nat → Option Nat
  | 0, _ => none
  | fuel + 1, pos => if p pos then cyclicFind p n fuel ((pos + 1) % n) else some pos

variable {p : Nat → Bool} {n : Nat}

private theorem step_mod (pos d : Nat) : ((pos + 1) % n + d) % n = (pos + (d + 1)) % n := by
  rw [Nat.mod_add_mod]
  congr 1
  omega

/-- The position found is `pos + d`, reached after `d` positions that hold. -/
theorem cyclicFind_eq_some {fuel pos z : Nat} (start : pos < n)
    (found : cyclicFind p n fuel pos = some z) :
    ∃ d < fuel, z = (pos + d) % n ∧ p z = false ∧ ∀ e < d, p ((pos + e) % n) = true := by
  induction fuel generalizing pos with
  | zero => simp [cyclicFind] at found
  | succ fuel ih =>
      simp only [cyclicFind] at found
      split at found
      · rename_i holds
        obtain ⟨d, below, at_, fails, before⟩ := ih (Nat.mod_lt _ (by omega)) found
        refine ⟨d + 1, by omega, by rw [at_, step_mod], fails, fun e he => ?_⟩
        cases e with
        | zero => simpa [Nat.mod_eq_of_lt start] using holds
        | succ e => rw [← step_mod]; exact before e (by omega)
      · rename_i fails
        simp only [Option.some.injEq] at found
        subst found
        exact ⟨0, by omega, by simp [Nat.mod_eq_of_lt start], by simpa using fails, by omega⟩

theorem cyclicFind_eq_none {fuel pos : Nat} (start : pos < n)
    (missed : cyclicFind p n fuel pos = none) : ∀ d < fuel, p ((pos + d) % n) = true := by
  induction fuel generalizing pos with
  | zero => intro d hd; omega
  | succ fuel ih =>
      simp only [cyclicFind] at missed
      split at missed
      · rename_i holds
        intro d hd
        cases d with
        | zero => simpa [Nat.mod_eq_of_lt start] using holds
        | succ d => rw [← step_mod]; exact ih (Nat.mod_lt _ (by omega)) missed d (by omega)
      · simp at missed

/-- Every position below `n` is met within `n` steps from `pos`. -/
theorem reached (pos : Nat) {i : Nat} (start : pos < n) (below : i < n) :
    ∃ d < n, i = (pos + d) % n := by
  by_cases ahead : pos ≤ i
  · exact ⟨i - pos, by omega, by rw [Nat.add_sub_cancel' ahead, Nat.mod_eq_of_lt below]⟩
  · refine ⟨n - pos + i, by omega, ?_⟩
    have : pos + (n - pos + i) = i + n := by omega
    rw [this, Nat.add_mod_right, Nat.mod_eq_of_lt below]

/-- A full round finds nothing exactly when the predicate holds everywhere. -/
theorem cyclicFind_none_iff {pos : Nat} (start : pos < n) :
    cyclicFind p n n pos = none ↔ ∀ i < n, p i = true := by
  constructor
  · intro missed i below
    obtain ⟨d, hd, rfl⟩ := reached pos start below
    exact cyclicFind_eq_none start missed d hd
  · intro everywhere
    cases found : cyclicFind p n n pos with
    | none => rfl
    | some z =>
        obtain ⟨d, -, rfl, fails, -⟩ := cyclicFind_eq_some start found
        rw [everywhere _ (Nat.mod_lt _ (by omega))] at fails
        cases fails

/-! ## The position a search stops at -/

/-- The first position, going round from `pos`, where `p` fails. -/
def First (p : Nat → Bool) (n pos z : Nat) : Prop :=
  ∃ d < n, z = (pos + d) % n ∧ p z = false ∧ ∀ e < d, p ((pos + e) % n) = true

namespace First

variable {pos k y z : Nat}

theorem below (first : First p n pos z) : z < n := by
  obtain ⟨d, small, rfl, -⟩ := first
  exact Nat.mod_lt _ (by omega)

theorem unique (first : First p n pos z) (again : First p n pos y) : y = z := by
  obtain ⟨d, small, rfl, failsD, beforeD⟩ := first
  obtain ⟨e, small', rfl, failsE, beforeE⟩ := again
  rcases Nat.lt_trichotomy d e with less | rfl | more
  · rw [beforeE d less] at failsD
    cases failsD
  · rfl
  · rw [beforeD e more] at failsE
    cases failsE

/-- From 0, there is nothing to go round. -/
theorem zero_iff : First p n 0 z ↔ z < n ∧ p z = false ∧ ∀ i < z, p i = true := by
  constructor
  · intro first
    have inside := first.below
    obtain ⟨d, small, at_, fails, before⟩ := first
    rw [Nat.zero_add, Nat.mod_eq_of_lt small] at at_
    refine ⟨inside, fails, fun i less => ?_⟩
    have holds := before i (by omega)
    rwa [Nat.zero_add, Nat.mod_eq_of_lt (by omega)] at holds
  · rintro ⟨inside, fails, before⟩
    refine ⟨z, inside, by rw [Nat.zero_add, Nat.mod_eq_of_lt inside], fails, fun e less => ?_⟩
    rw [Nat.zero_add, Nat.mod_eq_of_lt (by omega)]
    exact before e less

/-- From `k`, the search meets the part from `k` on and then the part before. -/
theorem from_iff (start : k < n) : First p n k z ↔ z < n ∧ p z = false ∧
    (k ≤ z ∧ (∀ i, k ≤ i → i < z → p i = true) ∨
      z < k ∧ (∀ i, k ≤ i → i < n → p i = true) ∧ ∀ i < z, p i = true) := by
  constructor
  · intro first
    have inside := first.below
    obtain ⟨d, small, at_, fails, before⟩ := first
    refine ⟨inside, fails, ?_⟩
    by_cases ahead : k + d < n
    · rw [Nat.mod_eq_of_lt ahead] at at_
      refine .inl ⟨by omega, fun i from_ less => ?_⟩
      have holds := before (i - k) (by omega)
      rwa [Nat.add_sub_cancel' from_, Nat.mod_eq_of_lt (by omega)] at holds
    · have wrap : (k + d) % n = k + d - n := by
        rw [Nat.mod_eq_sub_mod (by omega), Nat.mod_eq_of_lt (by omega)]
      rw [wrap] at at_
      refine .inr ⟨by omega, fun i from_ less => ?_, fun i less => ?_⟩
      · have holds := before (i - k) (by omega)
        rwa [Nat.add_sub_cancel' from_, Nat.mod_eq_of_lt less] at holds
      · have holds := before (n + i - k) (by omega)
        rwa [Nat.add_sub_cancel' (by omega), Nat.add_mod_left, Nat.mod_eq_of_lt (by omega)] at holds
  · rintro ⟨inside, fails, ⟨ahead, between⟩ | ⟨behind, tail, head⟩⟩
    · refine ⟨z - k, by omega, by rw [Nat.add_sub_cancel' ahead, Nat.mod_eq_of_lt inside], fails,
        fun e less => ?_⟩
      rw [Nat.mod_eq_of_lt (by omega)]
      exact between (k + e) (by omega) (by omega)
    · have round : k + (n - k + z) = n + z := by omega
      refine ⟨n - k + z, by omega, by rw [round, Nat.add_mod_left, Nat.mod_eq_of_lt inside], fails,
        fun e less => ?_⟩
      by_cases early : k + e < n
      · rw [Nat.mod_eq_of_lt early]
        exact tail (k + e) (by omega) early
      · rw [Nat.mod_eq_sub_mod (by omega), Nat.mod_eq_of_lt (by omega)]
        exact head (k + e - n) (by omega)

end First

/-- Searches from 0 and from `k` meet the same position just when one of the two parts, before
`k` and from `k` on, has none. -/
theorem first_same_iff {k y z : Nat} (start : k < n) (zero : First p n 0 y) (here : First p n k z) :
    y = z ↔ (∀ i < k, p i = true) ∨ ∀ i, k ≤ i → i < n → p i = true := by
  obtain ⟨insideY, failsY, beforeY⟩ := First.zero_iff.1 zero
  constructor
  · rintro rfl
    obtain ⟨-, -, ⟨ahead, -⟩ | ⟨-, tail, -⟩⟩ := (First.from_iff start).1 here
    · exact .inl fun i less => beforeY i (by omega)
    · exact .inr tail
  · intro part
    refine here.unique ((First.from_iff start).2 ⟨insideY, failsY, ?_⟩)
    rcases part with head | tail
    · refine .inl ⟨?_, fun i _ less => beforeY i less⟩
      by_contra behind
      rw [head y (by omega)] at failsY
      cases failsY
    · refine .inr ⟨?_, tail, beforeY⟩
      by_contra ahead
      rw [tail y (by omega) insideY] at failsY
      cases failsY

end CyclicSearch
