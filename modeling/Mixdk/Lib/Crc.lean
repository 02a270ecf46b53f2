/-
# Lib.Crc -- cyclic redundancy checks as remainders of polynomials

A word stands for a polynomial over the field of two elements, its lowest bit for the highest
power (`reflected`).  The shift register of a check with feedback `taps` multiplies by `X` modulo
`generator w taps` (`dvd_step`).  So a message absorbed digit by digit leaves its remainder,
after room for the check is added at its end (`reflected_absorbAll`), and two messages have the same check
exactly when the generator divides their difference (`absorbAll_eq_iff`); which it does not when they
differ in one stretch no longer than the check (`absorbAll_burst`).

A table of the `2 ^ k` words that digits lead to does `k` shifts at once (`step_iterate_table`).
-/
import Mathlib.Algebra.Polynomial.FieldDivision
import Mathlib.Algebra.CharP.Two
import Mathlib.Algebra.Field.ZMod
import Mathlib.RingTheory.PrincipalIdealDomain
import Mathlib.Data.Nat.Bitwise

namespace Crc

open Polynomial Finset

set_option autoImplicit false

/-! ## Words -/

/-- The polynomial of a word of `w` bits, lowest bit first. -/
noncomputable def reflected (w v : ℕ) : (ZMod 2)[X] :=
  ∑ i ∈ range w, if v.testBit i then X ^ (w - 1 - i) else 0

noncomputable def generator (w taps : ℕ) : (ZMod 2)[X] := X ^ w + reflected w taps

/-- One shift of the register. -/
def step (taps v : ℕ) : ℕ := if v.testBit 0 then (v >>> 1) ^^^ taps else v >>> 1

/-- A digit of `k` bits goes into the register. -/
def absorb (taps k c b : ℕ) : ℕ := (step taps)^[k] (c ^^^ b)

def absorbAll (taps k : ℕ) (s : List ℕ) : ℕ := s.foldl (absorb taps k) 0

/-- The polynomial of a list of digits. -/
noncomputable def message (k : ℕ) (s : List ℕ) : (ZMod 2)[X] :=
  s.foldl (fun m b => m * X ^ k + reflected k b) 0

section

variable {w k d taps v u b c i : ℕ} {s t : List ℕ}

theorem reflected_xor (w v u : ℕ) : reflected w (v ^^^ u) = reflected w v + reflected w u := by
  unfold reflected
  rw [← sum_add_distrib]
  refine sum_congr rfl fun i _ => ?_
  rw [Nat.testBit_xor]
  cases v.testBit i <;> cases u.testBit i <;> simp [CharTwo.add_self_eq_zero]

theorem coeff_reflected (small : i < w) (v : ℕ) :
    (reflected w v).coeff (w - 1 - i) = if v.testBit i then 1 else 0 := by
  unfold reflected
  rw [finsetSum_coeff, sum_eq_single_of_mem i (mem_range.2 small)]
  · split
    next => rw [coeff_X_pow_self]
    next => rw [coeff_zero]
  · intro j inside other
    have below := mem_range.1 inside
    split
    next => rw [coeff_X_pow, if_neg (by omega)]
    next => exact coeff_zero _

theorem degree_reflected (w v : ℕ) : (reflected w v).degree < w := by
  refine (degree_sum_le _ _).trans_lt ((Finset.sup_lt_iff (WithBot.bot_lt_coe w)).2 ?_)
  intro i inside
  have below := mem_range.1 inside
  split
  next =>
    rw [degree_X_pow]
    exact Nat.cast_lt.2 (by omega)
  next =>
    rw [degree_zero]
    exact WithBot.bot_lt_coe w

theorem reflected_injective (small : v < 2 ^ w) (small' : u < 2 ^ w)
    (same : reflected w v = reflected w u) : v = u := by
  refine Nat.eq_of_testBit_eq fun i => ?_
  by_cases below : i < w
  · have coeff := congrArg (coeff · (w - 1 - i)) same
    simp only [coeff_reflected below] at coeff
    cases left : v.testBit i <;> cases right : u.testBit i <;> simp_all
  · have room := Nat.pow_le_pow_right Nat.two_pos (Nat.not_lt.1 below)
    rw [Nat.testBit_lt_two_pow (small.trans_le room), Nat.testBit_lt_two_pow (small'.trans_le room)]

theorem generator_monic (w taps : ℕ) : (generator w taps).Monic :=
  monic_X_pow_add (degree_reflected w taps)

theorem degree_generator (w taps : ℕ) : (generator w taps).degree = w := by
  rw [generator, degree_add_eq_left_of_degree_lt, degree_X_pow]
  rw [degree_X_pow]
  exact degree_reflected w taps

/-- With the lowest power among the taps, the generator has no factor `X`. -/
theorem generator_coprime (top : taps.testBit w = true) (n : ℕ) :
    IsCoprime (generator (w + 1) taps) (X ^ n) := by
  have constant : (generator (w + 1) taps).coeff 0 = 1 := by
    have last := coeff_reflected (Nat.lt_add_one w) taps
    rw [Nat.add_sub_cancel, Nat.sub_self, top, if_pos rfl] at last
    rw [generator, coeff_add, last, coeff_X_pow, if_neg (Nat.succ_ne_zero w).symm, zero_add]
  have notDvd : ¬ (X : (ZMod 2)[X]) ∣ generator (w + 1) taps := by
    rw [X_dvd_iff, constant]
    exact one_ne_zero
  have irreducible : Irreducible (X : (ZMod 2)[X]) := irreducible_X
  exact (IsCoprime.pow_left (irreducible.coprime_iff_not_dvd.2 notDvd)).symm

/-! ## The register -/

theorem step_lt (word : taps < 2 ^ w) (small : v < 2 ^ w) : step taps v < 2 ^ w := by
  have half : v >>> 1 < 2 ^ w := (Nat.shiftRight_le v 1).trans_lt small
  unfold step
  split
  next => exact Nat.xor_lt_two_pow half word
  next => exact half

theorem step_iterate_lt (word : taps < 2 ^ w) (small : v < 2 ^ w) (k : ℕ) :
    (step taps)^[k] v < 2 ^ w := by
  induction k with
  | zero => exact small
  | succ k ih =>
      rw [Function.iterate_succ_apply']
      exact step_lt word ih

/-- A shift drops the lowest bit, the highest power. -/
theorem X_mul_reflected (small : v < 2 ^ (w + 1)) :
    X * reflected (w + 1) v =
      reflected (w + 1) (v >>> 1) + if v.testBit 0 then X ^ (w + 1) else 0 := by
  have top : (v >>> 1).testBit w = false := by
    rw [Nat.testBit_shiftRight, Nat.add_comm]
    exact Nat.testBit_lt_two_pow small
  have shift : ∀ i ∈ range w, X * (if v.testBit (i + 1) then X ^ (w + 1 - 1 - (i + 1)) else 0) =
      if (v >>> 1).testBit i then (X : (ZMod 2)[X]) ^ (w + 1 - 1 - i) else 0 := by
    intro i inside
    have below := mem_range.1 inside
    have power : w + 1 - 1 - i = w + 1 - 1 - (i + 1) + 1 := by omega
    rw [Nat.testBit_shiftRight, Nat.add_comm 1 i, power, pow_succ', mul_ite, mul_zero]
  unfold reflected
  rw [mul_sum, sum_range_succ', sum_range_succ _ w, top, sum_congr rfl shift, mul_ite, mul_zero]
  simp only [Bool.false_eq_true, if_false, add_zero, Nat.add_sub_cancel, Nat.sub_zero, pow_succ']

/-- **A shift of the register is a multiplication by `X`.** -/
theorem dvd_step (taps : ℕ) (small : v < 2 ^ (w + 1)) :
    generator (w + 1) taps ∣ X * reflected (w + 1) v - reflected (w + 1) (step taps v) := by
  rw [X_mul_reflected small, step]
  split
  next =>
    rw [reflected_xor, add_sub_add_left_eq_sub, generator, CharTwo.sub_eq_add]
  next => simp

theorem dvd_step_iterate (word : taps < 2 ^ (w + 1)) (small : v < 2 ^ (w + 1)) (k : ℕ) :
    generator (w + 1) taps ∣
      X ^ k * reflected (w + 1) v - reflected (w + 1) ((step taps)^[k] v) := by
  induction k with
  | zero => simp
  | succ k ih =>
      have last := dvd_step taps (step_iterate_lt word small k)
      have rest := Dvd.dvd.mul_left ih X
      rw [Function.iterate_succ_apply']
      refine (dvd_add rest last).trans (dvd_of_eq ?_)
      rw [pow_succ']
      ring

/-! ## Messages -/

/-- A short digit in a wider word. -/
theorem reflected_digit (digit : b < 2 ^ k) (d : ℕ) :
    reflected (k + d) b = X ^ d * reflected k b := by
  have high : ∀ i ∈ range d,
      (if b.testBit (k + i) then (X : (ZMod 2)[X]) ^ (k + d - 1 - (k + i)) else 0) = 0 := by
    intro i _
    have room := Nat.pow_le_pow_right Nat.two_pos (Nat.le_add_right k i)
    rw [Nat.testBit_lt_two_pow (digit.trans_le room)]
    exact if_neg Bool.false_ne_true
  unfold reflected
  rw [sum_range_add, sum_eq_zero high, add_zero, mul_sum]
  refine sum_congr rfl fun i inside => ?_
  have below := mem_range.1 inside
  have power : k + d - 1 - i = d + (k - 1 - i) := by omega
  rw [power, pow_add, mul_ite, mul_zero]

theorem message_concat (k : ℕ) (s : List ℕ) (b : ℕ) :
    message k (s ++ [b]) = message k s * X ^ k + reflected k b := by
  rw [message, List.foldl_append]
  rfl

theorem message_append (k : ℕ) (s t : List ℕ) :
    message k (s ++ t) = message k s * X ^ (k * t.length) + message k t := by
  induction t using List.reverseRecOn with
  | nil => simp [message]
  | append_singleton t b ih =>
      rw [← List.append_assoc, message_concat, message_concat, ih, List.length_append,
        List.length_singleton, Nat.mul_succ, pow_add]
      ring

theorem degree_message (k : ℕ) (s : List ℕ) : (message k s).degree < ↑(k * s.length) := by
  induction s using List.reverseRecOn with
  | nil => exact WithBot.bot_lt_coe _
  | append_singleton s b ih =>
      have shifted : (message k s * X ^ k).degree < ↑(k * s.length + k) := by
        rw [degree_mul, degree_X_pow, Nat.cast_add]
        exact WithBot.add_lt_add_right (WithBot.coe_ne_bot) ih
      have digit : (reflected k b).degree < ↑(k * s.length + k) :=
        (degree_reflected k b).trans_le (Nat.cast_le.2 (Nat.le_add_left _ _))
      rw [message_concat, List.length_append, List.length_singleton, Nat.mul_succ]
      exact (degree_add_le _ _).trans_lt (max_lt shifted digit)

/-- Digits can be read off the polynomial. -/
theorem message_injective (same : message k s = message k t) (length : s.length = t.length)
    (digits : ∀ b ∈ s, b < 2 ^ k) (digits' : ∀ b ∈ t, b < 2 ^ k) : s = t := by
  induction s using List.reverseRecOn generalizing t with
  | nil => exact (List.length_eq_zero_iff.1 length.symm).symm
  | append_singleton s b ih =>
      obtain rfl | ⟨t, c, rfl⟩ := List.eq_nil_or_concat' t
      · simp at length
      · rw [List.forall_mem_append, List.forall_mem_singleton] at digits digits'
        rw [List.length_append, List.length_append] at length
        rw [message_concat, message_concat] at same
        have low (m : (ZMod 2)[X]) (b : ℕ) :
            (m * X ^ k + reflected k b) /ₘ X ^ k = m ∧
              (m * X ^ k + reflected k b) %ₘ X ^ k = reflected k b := by
          refine div_modByMonic_unique _ _ (monic_X_pow k) ⟨?_, ?_⟩
          · ring
          · rw [degree_X_pow]
            exact degree_reflected k b
        have first : message k s = message k t := by
          rw [← (low (message k s) b).1, same, (low (message k t) c).1]
        have last : reflected k b = reflected k c := by
          rw [← (low (message k s) b).2, same, (low (message k t) c).2]
        rw [ih first (Nat.add_right_cancel length) digits.1 digits'.1,
          reflected_injective digits.2 digits'.2 last]

/-! ## Checks -/

section

variable (word : taps < 2 ^ (w + 1)) (fits : k ≤ w + 1)

include word fits

theorem dvd_absorbAll (digits : ∀ b ∈ s, b < 2 ^ k) :
    absorbAll taps k s < 2 ^ (w + 1) ∧ generator (w + 1) taps ∣
      X ^ (w + 1) * message k s - reflected (w + 1) (absorbAll taps k s) := by
  induction s using List.reverseRecOn with
  | nil => exact ⟨Nat.two_pow_pos _, by simp [absorbAll, message, reflected]⟩
  | append_singleton s b ih =>
      rw [List.forall_mem_append, List.forall_mem_singleton] at digits
      obtain ⟨small, before⟩ := ih digits.1
      have one : absorbAll taps k (s ++ [b]) = (step taps)^[k] (absorbAll taps k s ^^^ b) := by
        rw [absorbAll, List.foldl_append]
        rfl
      have mixed : absorbAll taps k s ^^^ b < 2 ^ (w + 1) :=
        Nat.xor_lt_two_pow small (digits.2.trans_le (Nat.pow_le_pow_right Nat.two_pos fits))
      have shifts := dvd_step_iterate word mixed k
      obtain ⟨d, room⟩ := Nat.exists_eq_add_of_le fits
      have digit := reflected_digit digits.2 d
      rw [← room] at digit
      rw [one, message_concat]
      refine ⟨step_iterate_lt word mixed k, (dvd_add (Dvd.dvd.mul_left before (X ^ k))
        shifts).trans (dvd_of_eq ?_)⟩
      rw [reflected_xor, digit]
      have power : (X : (ZMod 2)[X]) ^ (w + 1) = X ^ k * X ^ d := by rw [room, pow_add]
      rw [power]
      ring

/-- **The check is the remainder of the message, with room for the check at its end.** -/
theorem reflected_absorbAll (digits : ∀ b ∈ s, b < 2 ^ k) :
    reflected (w + 1) (absorbAll taps k s) =
      (X ^ (w + 1) * message k s) %ₘ generator (w + 1) taps := by
  have monic := generator_monic (w + 1) taps
  have own : reflected (w + 1) (absorbAll taps k s) %ₘ generator (w + 1) taps =
      reflected (w + 1) (absorbAll taps k s) := by
    rw [modByMonic_eq_self_iff monic, degree_generator]
    exact degree_reflected _ _
  rw [modByMonic_eq_of_dvd_sub monic (dvd_absorbAll word fits digits).2, own]

/-- **Two messages have the same check when the generator divides their difference.** -/
theorem absorbAll_eq_iff (top : taps.testBit w = true) (digits : ∀ b ∈ s, b < 2 ^ k)
    (digits' : ∀ b ∈ t, b < 2 ^ k) : absorbAll taps k s = absorbAll taps k t ↔
      generator (w + 1) taps ∣ message k s - message k t := by
  have same : absorbAll taps k s = absorbAll taps k t ↔
      generator (w + 1) taps ∣ X ^ (w + 1) * message k s - X ^ (w + 1) * message k t := by
    rw [← modByMonic_eq_zero_iff_dvd (generator_monic (w + 1) taps), sub_modByMonic, sub_eq_zero,
      ← reflected_absorbAll word fits digits, ← reflected_absorbAll word fits digits']
    exact ⟨congrArg _, reflected_injective (dvd_absorbAll word fits digits).1
      (dvd_absorbAll word fits digits').1⟩
  rw [same, ← mul_sub]
  exact ⟨(generator_coprime top (w + 1)).dvd_of_dvd_mul_left, fun divides => divides.mul_left _⟩

/-- **A difference in one stretch, no longer than the check, is seen.** -/
theorem absorbAll_burst (top : taps.testBit w = true) {front mid mid' back : List ℕ}
    (length : mid.length = mid'.length) (short : k * mid.length ≤ w + 1)
    (digits : ∀ b ∈ front ++ mid ++ back, b < 2 ^ k) (digits' : ∀ b ∈ mid', b < 2 ^ k)
    (same : absorbAll taps k (front ++ mid ++ back) = absorbAll taps k (front ++ mid' ++ back)) :
    mid = mid' := by
  rw [List.forall_mem_append, List.forall_mem_append] at digits
  obtain ⟨⟨inFront, inMid⟩, inBack⟩ := digits
  have all (m : List ℕ) (inside : ∀ b ∈ m, b < 2 ^ k) : ∀ b ∈ front ++ m ++ back, b < 2 ^ k :=
    List.forall_mem_append.2 ⟨List.forall_mem_append.2 ⟨inFront, inside⟩, inBack⟩
  rw [absorbAll_eq_iff word fits top (all mid inMid) (all mid' digits'),
    message_append, message_append, message_append, message_append k front mid', length] at same
  -- the ends cancel, and what is left of the difference is too short to be divided
  have divides : generator (w + 1) taps ∣ message k mid - message k mid' := by
    refine (generator_coprime top (k * back.length)).dvd_of_dvd_mul_right
      (same.trans (dvd_of_eq ?_))
    ring
  have small : (message k mid - message k mid').degree < (generator (w + 1) taps).degree := by
    have bound : (↑(k * mid.length) : WithBot ℕ) ≤ ↑(w + 1) := Nat.cast_le.2 short
    rw [degree_generator]
    refine (degree_sub_le _ _).trans_lt (max_lt ?_ ?_)
    · exact (degree_message k mid).trans_le bound
    · exact (degree_message k mid').trans_le (length ▸ bound)
  exact message_injective (sub_eq_zero.1 (eq_zero_of_dvd_of_degree_lt divides small)) length inMid
    digits'

end

/-! ## Tables -/

theorem step_xor (taps v u : ℕ) : step taps (v ^^^ u) = step taps v ^^^ step taps u := by
  unfold step
  rw [Nat.testBit_xor, Nat.shiftRight_xor_distrib]
  cases v.testBit 0 <;> cases u.testBit 0
  · rfl
  · exact Nat.xor_assoc _ _ _
  · exact Nat.xor_right_comm _ _ _
  · change (v >>> 1) ^^^ (u >>> 1) = (v >>> 1) ^^^ taps ^^^ ((u >>> 1) ^^^ taps)
    rw [Nat.xor_assoc, Nat.xor_comm (u >>> 1) taps, ← Nat.xor_assoc taps, Nat.xor_self, Nat.zero_xor]

theorem step_iterate_xor (taps k v u : ℕ) :
    (step taps)^[k] (v ^^^ u) = (step taps)^[k] v ^^^ (step taps)^[k] u := by
  induction k generalizing v u with
  | zero => rfl
  | succ k ih => rw [Function.iterate_succ_apply, Function.iterate_succ_apply,
      Function.iterate_succ_apply, step_xor, ih]

/-- Zeros just go out. -/
theorem step_iterate_shiftLeft (taps k v : ℕ) : (step taps)^[k] (v <<< k) = v := by
  induction k with
  | zero => rfl
  | succ k ih =>
      have low : (v <<< (k + 1)).testBit 0 = false := by simp
      have out : (v <<< (k + 1)) >>> 1 = v <<< k := by
        rw [Nat.shiftLeft_succ, Nat.shiftRight_one]
        exact Nat.mul_div_cancel_left _ Nat.two_pos
      rw [Function.iterate_succ_apply, step, low, if_neg Bool.false_ne_true, out, ih]

/-- **`k` shifts at once: the lowest `k` bits by a table, the others moved down.** -/
theorem step_iterate_table (taps k v : ℕ) :
    (step taps)^[k] v = (step taps)^[k] (v % 2 ^ k) ^^^ v >>> k := by
  have parts : v = (v % 2 ^ k) ^^^ (v >>> k) <<< k := by
    refine Nat.eq_of_testBit_eq fun i => ?_
    rw [Nat.testBit_xor, Nat.testBit_mod_two_pow, Nat.testBit_shiftLeft, Nat.testBit_shiftRight]
    by_cases below : i < k
    · simp [below, Nat.not_le.2 below]
    · have back : k + (i - k) = i := by omega
      simp [below, back, Nat.not_lt.1 below]
  nth_rewrite 1 [parts]
  rw [step_iterate_xor, step_iterate_shiftLeft]

end

end Crc
