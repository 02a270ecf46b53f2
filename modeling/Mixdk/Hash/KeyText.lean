/-
# Hash.KeyText -- the text of a key

Both hash functions print the key with `sprintf("%d", key)` and hash the characters.  The text is a
sign at most and then decimal digits (`keyString_digit`), it has at most eleven characters
(`keyString_length_le`), and two keys never have the same text (`keyString_injective`).
-/
import Mixdk.Core.Hash

namespace Mixdk

set_option autoImplicit false

theorem toDigits_digit {n : Nat} {c : Char} (member : c ∈ Nat.toDigits 10 n) :
    48 ≤ c.toNat ∧ c.toNat ≤ 57 := by
  have digit := Nat.isDigit_of_mem_toDigits (by decide) (by decide) member
  simp only [Char.isDigit, Bool.and_eq_true, decide_eq_true_eq] at digit
  exact digit

/-- The text without its sign. -/
def keyDigits (key : Nat) : List Nat := (Nat.toDigits 10 (toInt32 key).natAbs).map Char.toNat

theorem keyString_eq (key : Nat) :
    keyString key = if toInt32 key < 0 then 45 :: keyDigits key else keyDigits key := rfl

theorem keyDigits_digit {key b : Nat} (member : b ∈ keyDigits key) : 48 ≤ b ∧ b ≤ 57 := by
  obtain ⟨c, there, rfl⟩ := List.mem_map.1 member
  exact toDigits_digit there

theorem keyString_bytes (key : Nat) : ∀ b ∈ keyString key, b < 2 ^ 8 := by
  intro b member
  have digit : ∀ b ∈ keyDigits key, b < 2 ^ 8 := fun b inside =>
    (keyDigits_digit inside).2.trans_lt (by decide)
  rw [keyString_eq] at member
  split at member
  · rcases List.mem_cons.1 member with rfl | inside
    · decide
    · exact digit b inside
  · exact digit b member

/-- All characters but the first are digits. -/
theorem keyString_digit {key i : Nat} (positive : 0 < i) (inside : i < (keyString key).length) :
    48 ≤ (keyString key).getD i 0 ∧ (keyString key).getD i 0 ≤ 57 := by
  have digit : ∀ j < (keyDigits key).length,
      48 ≤ (keyDigits key).getD j 0 ∧ (keyDigits key).getD j 0 ≤ 57 := by
    intro j below
    rw [List.getD_eq_getElem?_getD, List.getElem?_eq_getElem below, Option.getD_some]
    exact keyDigits_digit (List.getElem_mem below)
  obtain ⟨j, rfl⟩ := Nat.exists_eq_succ_of_ne_zero positive.ne'
  rw [keyString_eq] at inside ⊢
  split
  next negative =>
    rw [if_pos negative, List.length_cons] at inside
    rw [List.getD_cons_succ]
    exact digit j (Nat.lt_of_succ_lt_succ inside)
  next plain =>
    rw [if_neg plain] at inside
    exact digit _ inside

theorem keyString_length_le (key : Nat) : (keyString key).length ≤ 11 := by
  have size : (toInt32 key).natAbs < 10 ^ 10 := by
    unfold toInt32
    rw [Int.bmod_def]
    omega
  have digits : (keyDigits key).length ≤ 10 := by
    rw [keyDigits, List.length_map]
    exact (Nat.length_toDigits_le_iff (by decide) (by decide)).2 size
  rw [keyString_eq]
  split
  next =>
    rw [List.length_cons]
    omega
  next => omega

theorem toInt32_injective {key key' : Nat} (word : key < 2 ^ 32) (word' : key' < 2 ^ 32)
    (same : toInt32 key = toInt32 key') : key = key' := by
  unfold toInt32 at same
  rw [Int.bmod_def, Int.bmod_def] at same
  omega

/-- **Two keys never have the same text.** -/
theorem keyString_injective {key key' : Nat} (word : key < 2 ^ 32) (word' : key' < 2 ^ 32)
    (same : keyString key = keyString key') : key = key' := by
  have magnitude : keyDigits key = keyDigits key' →
      (toInt32 key).natAbs = (toInt32 key').natAbs := by
    intro digits
    have chars : Function.Injective Char.toNat := fun _ _ => Char.toNat_inj.1
    have texts := List.map_injective_iff.2 chars digits
    rw [← Nat.ofDigitChars_ten_toDigits (n := (toInt32 key).natAbs), texts,
      Nat.ofDigitChars_ten_toDigits]
  -- a text of digits has no sign in front
  have unsigned : ∀ {k d}, 45 :: d ≠ keyDigits k := by
    intro k d is
    have sign : 45 ∈ keyDigits k := is ▸ List.mem_cons_self
    exact absurd (keyDigits_digit sign).1 (by decide)
  apply toInt32_injective word word'
  rw [keyString_eq, keyString_eq] at same
  split at same
  next negative =>
    split at same
    next negative' =>
      have size := magnitude (List.cons.inj same).2
      omega
    next => exact absurd same unsigned
  next plain =>
    split at same
    next => exact absurd same.symm unsigned
    next plain' =>
      have size := magnitude same
      omega

end Mixdk
