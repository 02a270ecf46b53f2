/-
# Lib.BitMix -- steps of a mixing function that lose nothing

Hash functions stir a word with steps that can be undone: a word xored with itself moved down
(`xorShift_mixes`), a multiplication by an odd number modulo a power of two (`mulOdd_mixes`), and
with it a word added to itself moved up (`addShift_mixes`), a rotation (`rotate_mixes`).  A step that
drops `k` bits leads at most `2 ^ k` words to one (`card_shiftRight_le`).

A hash that takes in a message block by block, with steps that lose neither what they have nor what
they take in, tells apart messages of one length that differ in one block (`absorb_one_block`).
-/
import Mathlib.Data.Nat.Bitwise
import Mathlib.Data.Nat.ModEq
import Mathlib.Data.Nat.Prime.Basic
import Mathlib.Data.Finset.Card
import Mathlib.Order.Interval.Finset.Nat
import Mathlib.Tactic.Common

namespace BitMix

set_option autoImplicit false

variable {w s m k : ℕ}

/-- The word and itself moved down. -/
def xorShift (s x : ℕ) : ℕ := x ^^^ (x >>> s)

/-- The word and itself moved up, in `w` bits. -/
def addShift (w s x : ℕ) : ℕ := (x + (x <<< s)) % 2 ^ w

/-- The word moved up by `r` bits, its highest bits at the low end. -/
def rotate (w r x : ℕ) : ℕ := (x <<< r) % 2 ^ w ||| (x >>> (w - r))

/-- A function on words of `w` bits that can be undone. -/
structure Mixes (w : ℕ) (f : ℕ → ℕ) : Prop where
  maps : Set.MapsTo f {x | x < 2 ^ w} {x | x < 2 ^ w}
  injOn : Set.InjOn f {x | x < 2 ^ w}

theorem Mixes.comp {f g : ℕ → ℕ} (second : Mixes w g) (first : Mixes w f) : Mixes w (g ∘ f) where
  maps := second.maps.comp first.maps
  injOn := second.injOn.comp first.injOn first.maps

theorem xorShift_injective (some_bit : 0 < s) : Function.Injective (xorShift s) := by
  intro x y same
  -- the difference is itself moved down, so there is none
  have moved : (x ^^^ y) >>> s = x ^^^ y := by
    have both : xorShift s x ^^^ xorShift s y = 0 := by rw [same, Nat.xor_self]
    have split : xorShift s x ^^^ xorShift s y = (x ^^^ y) ^^^ ((x ^^^ y) >>> s) := by
      unfold xorShift
      rw [Nat.shiftRight_xor_distrib]
      ac_rfl
    exact (Nat.xor_eq_zero_iff.1 (split.symm.trans both)).symm
  have none_ : x ^^^ y = 0 := by
    by_contra some_
    have less : (x ^^^ y) / 2 ^ s < x ^^^ y :=
      Nat.div_lt_self (Nat.pos_of_ne_zero some_) (Nat.one_lt_two_pow some_bit.ne')
    rw [← Nat.shiftRight_eq_div_pow, moved] at less
    exact less.false
  exact Nat.xor_eq_zero_iff.1 none_

theorem xorShift_mixes (some_bit : 0 < s) : Mixes w (xorShift s) where
  maps := fun x small => Nat.xor_lt_two_pow small ((Nat.shiftRight_le x s).trans_lt small)
  injOn := (xorShift_injective some_bit).injOn

theorem mulOdd_mixes (odd : Odd m) : Mixes w fun x => x * m % 2 ^ w where
  maps := fun _ _ => Nat.mod_lt _ (Nat.two_pow_pos w)
  injOn := by
    intro x small y small' same
    have coprime : m.Coprime (2 ^ w) := Nat.Coprime.pow_right w (Nat.coprime_two_right.2 odd)
    have cancel : x ≡ y [MOD 2 ^ w] := Nat.ModEq.cancel_right_of_coprime coprime.symm same
    exact Nat.ModEq.eq_of_lt_of_lt cancel small small'

theorem addShift_mixes (some_bit : 0 < s) : Mixes w (addShift w s) := by
  have product : addShift w s = fun x => x * (1 + 2 ^ s) % 2 ^ w := by
    funext x
    rw [addShift, Nat.shiftLeft_eq, Nat.mul_add, Nat.mul_one]
  rw [product]
  exact mulOdd_mixes (Even.one_add (Nat.even_pow.2 ⟨even_two, some_bit.ne'⟩))

/-- The bits that come round fit below the others. -/
theorem high_lt {x r : ℕ} (inside : r ≤ w) (small : x < 2 ^ w) : x / 2 ^ (w - r) < 2 ^ r := by
  apply Nat.div_lt_of_lt_mul
  rwa [← pow_add, Nat.sub_add_cancel inside]

theorem rotate_eq {x r : ℕ} (inside : r ≤ w) (small : x < 2 ^ w) :
    rotate w r x = 2 ^ r * (x % 2 ^ (w - r)) + x / 2 ^ (w - r) := by
  have whole : 2 ^ w = 2 ^ r * 2 ^ (w - r) := by rw [← pow_add, Nat.add_sub_cancel' inside]
  rw [rotate, Nat.shiftLeft_eq, Nat.shiftRight_eq_div_pow, mul_comm x, whole, Nat.mul_mod_mul_left,
    ← Nat.two_pow_add_eq_or_of_lt (high_lt inside small)]

theorem rotate_mixes {r : ℕ} (inside : r ≤ w) : Mixes w (rotate w r) where
  maps := fun _ small => Nat.or_lt_two_pow (Nat.mod_lt _ (Nat.two_pow_pos w))
    ((Nat.shiftRight_le _ _).trans_lt small)
  injOn := by
    intro x small y small' same
    rw [rotate_eq inside small, rotate_eq inside small'] at same
    have low : x % 2 ^ (w - r) = y % 2 ^ (w - r) := by
      have quotient := congrArg (· / 2 ^ r) same
      simpa only [Nat.mul_add_div (Nat.two_pow_pos r), Nat.div_eq_of_lt (high_lt inside small),
        Nat.div_eq_of_lt (high_lt inside small'), add_zero] using quotient
    rw [low] at same
    rw [← Nat.div_add_mod x (2 ^ (w - r)), ← Nat.div_add_mod y (2 ^ (w - r)), low,
      Nat.add_left_cancel same]

/-- At most `2 ^ k` words are the same after `k` bits are dropped. -/
theorem card_shiftRight_le {t : Finset ℕ} {v : ℕ} (same : ∀ x ∈ t, x >>> k = v) :
    t.card ≤ 2 ^ k := by
  have inside : t ⊆ Finset.Ico (v * 2 ^ k) (v * 2 ^ k + 2 ^ k) := by
    intro x member
    have quotient := same x member
    rw [Nat.shiftRight_eq_div_pow] at quotient
    rw [Finset.mem_Ico, ← quotient]
    have split := Nat.div_add_mod' x (2 ^ k)
    have rest := Nat.mod_lt x (Nat.two_pow_pos k)
    omega
  calc t.card ≤ (Finset.Ico (v * 2 ^ k) (v * 2 ^ k + 2 ^ k)).card := Finset.card_le_card inside
    _ = 2 ^ k := by rw [Nat.card_Ico, Nat.add_sub_cancel_left]

/-! ## Blocks -/

section

universe u v

variable {σ : Type u} {β : Type v} {step : σ → β → σ}

/-- Take in the first `n` blocks. -/
def absorb (step : σ → β → σ) (s : σ) (blocks : ℕ → β) : ℕ → σ
  | 0 => s
  | n + 1 => step (absorb step s blocks n) (blocks n)

theorem absorb_congr {s : σ} {blocks blocks' : ℕ → β} {n : ℕ} (same : ∀ i < n, blocks i = blocks' i) :
    absorb step s blocks n = absorb step s blocks' n := by
  induction n with
  | zero => rfl
  | succ n ih =>
      rw [absorb, absorb, same n n.lt_succ_self, ih fun i below => same i (below.trans n.lt_succ_self)]

/-- **Two messages that differ in one block at most, and lead to the same, are the same.** -/
theorem absorb_one_block (keeps : ∀ b, Function.Injective (step · b))
    (takes : ∀ s, Function.Injective (step s)) {s : σ} {blocks blocks' : ℕ → β} {n j : ℕ}
    (elsewhere : ∀ i < n, i ≠ j → blocks i = blocks' i)
    (same : absorb step s blocks n = absorb step s blocks' n) : ∀ i < n, blocks i = blocks' i := by
  induction n with
  | zero =>
      intro i below
      cases below
  | succ n ih =>
      rw [absorb, absorb] at same
      have before : ∀ i < n, i ≠ j → blocks i = blocks' i := fun i below =>
        elsewhere i (below.trans n.lt_succ_self)
      by_cases last : n = j
      · have front : ∀ i < n, blocks i = blocks' i := fun i below =>
          before i below (by rw [← last]; exact below.ne)
        rw [absorb_congr front] at same
        rw [Nat.forall_lt_succ_right]
        exact ⟨front, takes _ same⟩
      · have here := elsewhere n n.lt_succ_self last
        rw [here] at same
        rw [Nat.forall_lt_succ_right]
        exact ⟨ih before (keeps _ same), here⟩

end

end BitMix
