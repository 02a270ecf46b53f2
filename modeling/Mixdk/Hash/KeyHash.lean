/-
# Hash.KeyHash -- the hash of a key

`mix_hash_hash` prints the key, takes the CRC-32 of the text and stirs it.  The table in
`mix_hash.c` is that of the CRC-32 polynomial (`crc32Tab_step`), so `crc32` computes the remainder of
the text (`crc32_remainder`).

The stirring keeps words apart (`stir_mixes`), the shift after it loses three bits and no more
(`keyWord_same`), and the checks of texts that differ in four characters in a row are distinct
(`keyCrc_injective`); so of ten thousand keys that differ in their last four digits at most eight
get the same word, which `mix_hash_hash` then reduces to a bucket (`keyHash_spread`).
-/
import Mixdk.Hash.KeyText
import Mixdk.Lib.Crc
import Mixdk.Lib.BitMix

namespace Mixdk

open Polynomial

set_option autoImplicit false

/-! ## The table -/

/-- The CRC-32 polynomial but for its highest power, lowest bit first. -/
def crc32Taps : Nat := 0xedb88320

/-- **The table has eight shifts of each byte.** -/
theorem crc32Tab_step : ∀ i < 256, crc32Tab.getD i 0 = (Crc.step crc32Taps)^[8] i := by
  decide +kernel

theorem crc32_absorb {val c : Nat} (byte : c < 2 ^ 8) :
    crc32Tab.getD ((val ^^^ c) &&& 0xff) 0 ^^^ (val >>> 8) = Crc.absorb crc32Taps 8 val c := by
  have low : (val ^^^ c) &&& 0xff = (val ^^^ c) % 2 ^ 8 := Nat.and_two_pow_sub_one_eq_mod _ 8
  have high : (val ^^^ c) >>> 8 = val >>> 8 := by
    rw [Nat.shiftRight_xor_distrib, Nat.shiftRight_eq_zero c 8 byte, Nat.xor_zero]
  have entry : crc32Tab.getD ((val ^^^ c) % 2 ^ 8) 0 =
      (Crc.step crc32Taps)^[8] ((val ^^^ c) % 2 ^ 8) :=
    crc32Tab_step _ (Nat.mod_lt _ (Nat.two_pow_pos 8))
  rw [Crc.absorb, Crc.step_iterate_table, low, high, entry]

theorem crc32_eq {s : List Nat} (bytes : ∀ b ∈ s, b < 2 ^ 8) :
    crc32 s = Crc.absorbAll crc32Taps 8 s := by
  unfold crc32 Crc.absorbAll
  exact List.foldl_ext _ _ _ fun val c member => crc32_absorb (bytes c member)

/-- The CRC-32 polynomial. -/
noncomputable def crc32Polynomial : (ZMod 2)[X] :=
  X ^ 32 + X ^ 26 + X ^ 23 + X ^ 22 + X ^ 16 + X ^ 12 + X ^ 11 + X ^ 10 + X ^ 8 + X ^ 7 + X ^ 5 +
    X ^ 4 + X ^ 2 + X + 1

theorem crc32_generator : Crc.generator 32 crc32Taps = crc32Polynomial := by
  have bits : (Finset.range 32).filter (fun i => crc32Taps.testBit i = true) =
      {5, 8, 9, 15, 19, 20, 21, 23, 24, 26, 27, 29, 30, 31} := by
    decide
  rw [Crc.generator, Crc.reflected, ← Finset.sum_filter, bits, crc32Polynomial]
  repeat rw [Finset.sum_insert (by decide)]
  rw [Finset.sum_singleton]
  ring

/-- **`crc32` computes the CRC-32 of a text**: the remainder of its polynomial, with room for 32 bits
at the end. -/
theorem crc32_remainder {s : List Nat} (bytes : ∀ b ∈ s, b < 2 ^ 8) :
    crc32 s < 2 ^ 32 ∧
      Crc.reflected 32 (crc32 s) = (X ^ 32 * Crc.message 8 s) %ₘ crc32Polynomial := by
  have word : crc32Taps < 2 ^ (31 + 1) := by decide
  have fits : 8 ≤ 31 + 1 := by decide
  rw [crc32_eq bytes, ← crc32_generator]
  exact ⟨(Crc.dvd_absorbAll word fits bytes).1, Crc.reflected_absorbAll word fits bytes⟩

/-- The text of block 4096. -/
theorem crc32_remainder_of_block : crc32 [52, 48, 57, 54] < 2 ^ 32 ∧
    Crc.reflected 32 (crc32 [52, 48, 57, 54]) =
      (X ^ 32 * Crc.message 8 [52, 48, 57, 54]) %ₘ crc32Polynomial :=
  crc32_remainder (by decide)

/-! ## The stirring -/

/-- The steps of `mix_hash_hash` between the check and the last shift. -/
def stir (key : Nat) : Nat :=
  let key := u64 (key + (key <<< 12))
  let key := key ^^^ (key >>> 22)
  let key := u64 (key + (key <<< 4))
  let key := key ^^^ (key >>> 9)
  let key := u64 (key + (key <<< 10))
  let key := key ^^^ (key >>> 2)
  let key := u64 (key + (key <<< 7))
  key ^^^ (key >>> 12)

/-- The word that `mix_hash_hash` reduces to a bucket. -/
def keyWord (key : Nat) : Nat := u64 ((stir (crc32 (keyString key)) >>> 3) * 2654435761)

theorem mixHashHash_eq (key hashSize : Nat) : mixHashHash key hashSize = keyWord key % hashSize :=
  rfl

theorem stir_mixes : BitMix.Mixes 64 stir := by
  have steps : stir = BitMix.xorShift 12 ∘ BitMix.addShift 64 7 ∘ BitMix.xorShift 2 ∘
      BitMix.addShift 64 10 ∘ BitMix.xorShift 9 ∘ BitMix.addShift 64 4 ∘ BitMix.xorShift 22 ∘
      BitMix.addShift 64 12 := rfl
  rw [steps]
  exact (BitMix.xorShift_mixes (by decide)).comp <|
    (BitMix.addShift_mixes (by decide)).comp <| (BitMix.xorShift_mixes (by decide)).comp <|
    (BitMix.addShift_mixes (by decide)).comp <| (BitMix.xorShift_mixes (by decide)).comp <|
    (BitMix.addShift_mixes (by decide)).comp <| (BitMix.xorShift_mixes (by decide)).comp <|
    BitMix.addShift_mixes (by decide)

/-! ## The text of a key -/

/-- The last `k` digits of a number. -/
def lastDigits : Nat → Nat → List Char
  | 0, _ => []
  | k + 1, r => lastDigits k (r / 10) ++ [Nat.digitChar (r % 10)]

theorem lastDigits_length (k r : Nat) : (lastDigits k r).length = k := by
  induction k generalizing r with
  | zero => rfl
  | succ k ih => rw [lastDigits, List.length_append, ih, List.length_singleton]

theorem toDigits_split {q : Nat} (some_ : 0 < q) (k : Nat) {r : Nat} (small : r < 10 ^ k) :
    Nat.toDigits 10 (q * 10 ^ k + r) = Nat.toDigits 10 q ++ lastDigits k r := by
  induction k generalizing r with
  | zero =>
      rw [Nat.lt_one_iff.1 small, Nat.pow_zero, Nat.mul_one, Nat.add_zero]
      exact (List.append_nil _).symm
  | succ k ih =>
      have digit : r % 10 < 10 := Nat.mod_lt r (by decide)
      have rest : r / 10 < 10 ^ k := Nat.div_lt_of_lt_mul (by rwa [Nat.mul_comm, ← Nat.pow_succ])
      have positive : 0 < q * 10 ^ k + r / 10 :=
        Nat.add_pos_left (Nat.mul_pos some_ (Nat.pow_pos (by decide))) _
      have split : q * 10 ^ (k + 1) + r = 10 * (q * 10 ^ k + r / 10) + r % 10 := by
        rw [Nat.pow_succ, ← Nat.mul_assoc]
        omega
      rw [split, ← Nat.toDigits_append_toDigits (by decide) positive digit, ih rest,
        Nat.toDigits_of_lt_base digit, lastDigits, List.append_assoc]

theorem lastDigits_injective (k : Nat) {r r' : Nat} (small : r < 10 ^ k) (small' : r' < 10 ^ k)
    (same : (lastDigits k r).map Char.toNat = (lastDigits k r').map Char.toNat) : r = r' := by
  induction k generalizing r r' with
  | zero => rw [Nat.lt_one_iff.1 small, Nat.lt_one_iff.1 small']
  | succ k ih =>
      have digits : ∀ a < 10, ∀ b < 10, (Nat.digitChar a).toNat = (Nat.digitChar b).toNat → a = b := by
        decide
      rw [lastDigits, lastDigits, List.map_append, List.map_append] at same
      obtain ⟨front, last⟩ := List.append_inj' same rfl
      have rest : ∀ {n}, n < 10 ^ (k + 1) → n / 10 < 10 ^ k := fun inside =>
        Nat.div_lt_of_lt_mul (by rwa [Nat.mul_comm, ← Nat.pow_succ])
      have high := ih (rest small) (rest small') front
      have low := digits _ (Nat.mod_lt r (by decide)) _ (Nat.mod_lt r' (by decide))
        (List.singleton_injective last)
      omega

/-- Keys that differ in their last four digits have different checks. -/
theorem keyCrc_injective {q r r' : Nat} (some_ : 0 < q) (int : q * 10 ^ 4 + 10 ^ 4 ≤ 2 ^ 31)
    (small : r < 10 ^ 4) (small' : r' < 10 ^ 4)
    (same : crc32 (keyString (q * 10 ^ 4 + r)) = crc32 (keyString (q * 10 ^ 4 + r'))) : r = r' := by
  have text : ∀ {r}, r < 10 ^ 4 → keyString (q * 10 ^ 4 + r) =
      (Nat.toDigits 10 q).map Char.toNat ++ (lastDigits 4 r).map Char.toNat ++ [] := by
    intro r small
    have word : toInt32 (q * 10 ^ 4 + r) = ((q * 10 ^ 4 + r : Nat) : Int) :=
      toInt32_of_lt (by omega)
    unfold keyString
    dsimp only
    rw [word, Int.natAbs_natCast, if_neg (Int.not_lt.2 (Int.natCast_nonneg _)),
      toDigits_split some_ 4 small, List.map_append, List.append_nil]
  have bytes := keyString_bytes (q * 10 ^ 4 + r)
  have bytes' := keyString_bytes (q * 10 ^ 4 + r')
  rw [crc32_eq bytes, crc32_eq bytes'] at same
  rw [text small] at bytes same
  rw [text small'] at bytes' same
  refine lastDigits_injective 4 small small' (Crc.absorbAll_burst (w := 31) (by decide) (by decide)
    (by decide) ?_ ?_ bytes (fun b member => bytes' b ?_) same)
  · rw [List.length_map, List.length_map, lastDigits_length, lastDigits_length]
  · rw [List.length_map, lastDigits_length]
  · exact List.mem_append_left _ (List.mem_append_right _ member)

/-! ## The words of keys -/

/-- The multiplication loses nothing. -/
theorem keyWord_same {key key' : Nat} (same : keyWord key = keyWord key') :
    stir (crc32 (keyString key)) >>> 3 = stir (crc32 (keyString key')) >>> 3 := by
  have small : ∀ key, stir (crc32 (keyString key)) >>> 3 < 2 ^ 64 := by
    intro key
    have check : crc32 (keyString key) < 2 ^ 64 :=
      (crc32_remainder (keyString_bytes key)).1.trans (by decide)
    exact (Nat.shiftRight_le _ 3).trans_lt (stir_mixes.maps check)
  exact (BitMix.mulOdd_mixes (w := 64) (m := 2654435761) (by decide)).injOn (small key)
    (small key') same

/-- **At most eight of ten thousand keys that differ in their last four digits have the same
word.** -/
theorem keyHash_spread {q : Nat} (some_ : 0 < q) (int : q * 10 ^ 4 + 10 ^ 4 ≤ 2 ^ 31) (v : Nat) :
    ((Finset.range (10 ^ 4)).filter fun r => keyWord (q * 10 ^ 4 + r) = v).card ≤ 8 := by
  let stirred (r : Nat) : Nat := stir (crc32 (keyString (q * 10 ^ 4 + r)))
  have distinct : Set.InjOn stirred
      ((Finset.range (10 ^ 4)).filter fun r => keyWord (q * 10 ^ 4 + r) = v) := by
    intro r here r' there same
    have check : ∀ key, crc32 (keyString key) < 2 ^ 64 := fun key =>
      (crc32_remainder (keyString_bytes key)).1.trans (by decide)
    have small := Finset.mem_range.1 (Finset.mem_filter.1 (Finset.mem_coe.1 here)).1
    have small' := Finset.mem_range.1 (Finset.mem_filter.1 (Finset.mem_coe.1 there)).1
    exact keyCrc_injective some_ int small small' (stir_mixes.injOn (check _) (check _) same)
  rw [← Finset.card_image_of_injOn distinct]
  rcases Finset.eq_empty_or_nonempty
    ((Finset.range (10 ^ 4)).filter fun r => keyWord (q * 10 ^ 4 + r) = v) with none_ | ⟨r₀, first⟩
  · rw [none_, Finset.image_empty, Finset.card_empty]
    exact Nat.zero_le 8
  · refine BitMix.card_shiftRight_le (k := 3) (v := stirred r₀ >>> 3) fun x member => ?_
    obtain ⟨r, inside, rfl⟩ := Finset.mem_image.1 member
    exact keyWord_same
      ((Finset.mem_filter.1 inside).2.trans (Finset.mem_filter.1 first).2.symm)

/-- The keys from 10000 to 19999. -/
theorem keyHash_spread_of_first :
    ((Finset.range (10 ^ 4)).filter fun r => keyWord (1 * 10 ^ 4 + r) = keyWord 10000).card ≤ 8 :=
  keyHash_spread (by decide) (by decide) _

end Mixdk
