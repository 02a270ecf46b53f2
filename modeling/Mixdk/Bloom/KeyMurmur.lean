/-
# Bloom.KeyMurmur -- the hashes of the texts of keys

The text of a key fits in the tail of `MurmurHash3_x64_128`.  Texts of one length are told apart by
the way it is hashed.  The length goes into both words; so for texts of different lengths it is enough
that what the characters behind the eighth add to the second word is far from what those of other
lengths can add, which is checked for all their digits (`digitWords_far`).  So no two keys have the
same hash (`keyMurmur_distinct`).
-/
import Mixdk.Bloom.Murmur

namespace Mixdk

set_option autoImplicit false

/-- The words that `n` digits make. -/
def digitWords : Nat → List UInt64
  | 0 => [0]
  | n + 1 => (digitWords n).flatMap fun w => (List.range 10).map fun d =>
      w ^^^ ((UInt8.ofNat (48 + d)).toUInt64 <<< UInt64.ofNat (8 * n))

/-- The word that `murmurK2` turns into this one. -/
def unmixK2 (y : UInt64) : UInt64 := rotl64 (y * 0xa98409e882ce4d7d) 31 * 0xa81e14edd9de2c7f

/-- No word of three bytes is turned into this one. -/
def farFromShort (y : UInt64) : Bool := murmurK2 (unmixK2 y) = y ∧ 2 ^ 24 ≤ (unmixK2 y).toNat

theorem farFromShort_ne {w y : UInt64} (far : farFromShort y = true) (short : w.toNat < 2 ^ 24) :
    murmurK2 w ≠ y := by
  rintro rfl
  obtain ⟨back, long⟩ := of_decide_eq_true far
  rw [murmurK2_injective back] at long
  omega

/-- What the word is turned into is large, and stays far from words of three bytes in a text of
another length. -/
def farFromOthers (w : UInt64) : Bool :=
  decide (16 ≤ (murmurK2 w).toNat) &&
    [1, 2, 3].all fun d => farFromShort (murmurK2 w ^^^ UInt64.ofNat d)

/-- The words of one, two and three digits. -/
theorem digitWords_all : ([1, 2, 3].all fun n => (digitWords n).all farFromOthers) = true := by
  decide +kernel

theorem digitWords_far {n : Nat} (length : n ∈ [1, 2, 3]) {w : UInt64} (member : w ∈ digitWords n) :
    16 ≤ (murmurK2 w).toNat ∧
      ∀ d ∈ [1, 2, 3], farFromShort (murmurK2 w ^^^ UInt64.ofNat d) = true := by
  have far := List.all_eq_true.1 (List.all_eq_true.1 digitWords_all n length) w member
  obtain ⟨large, apart⟩ := Bool.and_eq_true_iff.1 far
  exact ⟨of_decide_eq_true large, List.all_eq_true.1 apart⟩

theorem murmurK2_zero : murmurK2 0 = 0 := by
  decide

theorem tailWord_xor (tail : Nat → UInt8) (n : Nat) (k x : UInt64) :
    tailWord tail n (k ^^^ x) = tailWord tail n k ^^^ x := by
  induction n generalizing k with
  | zero => rfl
  | succ n ih => rw [tailWord, tailWord, ← ih, UInt64.xor_assoc, UInt64.xor_assoc, UInt64.xor_comm x]

theorem tailWord_mem {tail : Nat → UInt8} {n : Nat}
    (digits : ∀ i < n, ∃ d < 10, tail i = UInt8.ofNat (48 + d)) :
    tailWord tail n 0 ∈ digitWords n := by
  induction n with
  | zero => exact List.mem_singleton_self 0
  | succ n ih =>
      obtain ⟨d, digit, is⟩ := digits n n.lt_succ_self
      have rest := ih fun i below => digits i (below.trans n.lt_succ_self)
      rw [tailWord, tailWord_xor, is]
      exact List.mem_flatMap.2 ⟨_, rest, List.mem_map.2 ⟨d, List.mem_range.2 digit, rfl⟩⟩

theorem tailWord_lt (tail : Nat → UInt8) {n : Nat} (word : n ≤ 8) :
    (tailWord tail n 0).toNat < 2 ^ (8 * n) := by
  apply Nat.lt_pow_two_of_testBit
  intro i above
  by_cases inside : i < 64
  · have beyond : ¬ i / 8 < n := by omega
    rw [tailWord_testBit tail word inside, decide_eq_false beyond, Bool.false_and, Bool.xor_false]
    exact Nat.zero_testBit i
  · exact Nat.testBit_lt_two_pow ((tailWord tail n 0).toNat_lt.trans_le
      (Nat.pow_le_pow_right (by decide) (Nat.not_lt.1 inside)))

theorem keyData_digit {key i : Nat} (positive : 0 < i) (inside : i < (keyString key).length) :
    ∃ d < 10, keyData key i = UInt8.ofNat (48 + d) := by
  obtain ⟨low, high⟩ := keyString_digit positive inside
  refine ⟨(keyString key).getD i 0 - 48, by omega, ?_⟩
  rw [keyData, Nat.add_sub_cancel' low]

/-- The bytes in memory are the text. -/
theorem keyString_of_data {key key' : Nat} (length : (keyString key).length = (keyString key').length)
    (same : ∀ i < (keyString key).length, keyData key i = keyData key' i) :
    keyString key = keyString key' := by
  have byte : ∀ k i (inside : i < (keyString k).length), (keyData k i).toNat = (keyString k)[i] := by
    intro k i inside
    have small := keyString_bytes k _ (List.getElem_mem inside)
    rw [keyData, List.getD_eq_getElem?_getD, List.getElem?_eq_getElem inside, Option.getD_some,
      UInt8.toNat_ofNat', Nat.mod_eq_of_lt small]
  refine List.ext_getElem length fun i inside inside' => ?_
  rw [← byte key i inside, ← byte key' i inside', same i inside]

/-- What the end of a text adds to the second word. -/
def textEnd (key : Nat) : UInt64 :=
  murmurK2 (tailWord (fun i => keyData key (8 + i)) ((keyString key).length - 8) 0)

/-- A text is all tail. -/
theorem keyMurmur_eq (key : Nat) : keyMurmur key = murmurFinish (keyString key).length
    (murmurTail (keyData key) (keyString key).length
      (SALT_CONSTANT.toUInt64, SALT_CONSTANT.toUInt64)) := by
  have short := keyString_length_le key
  have blocks : (keyString key).length / 16 = 0 := by omega
  have rest : (keyString key).length % 16 = (keyString key).length := by omega
  simp only [keyMurmur, murmurHash3X64128, blocks, rest, BitMix.absorb, Nat.zero_mul, Nat.zero_add]

theorem murmurTail_second (key : Nat) (h : MurmurPair) :
    (murmurTail (keyData key) (keyString key).length h).2 = h.2 ^^^ textEnd key := by
  simp only [murmurTail, textEnd]
  split
  next => rfl
  next short =>
    have empty : (keyString key).length - 8 = 0 := by omega
    rw [empty, tailWord, murmurK2_zero, UInt64.xor_zero]

theorem keyMurmur_second {key key' : Nat} (same : keyMurmur key = keyMurmur key') :
    textEnd key ^^^ UInt64.ofNat (keyString key).length =
      textEnd key' ^^^ UInt64.ofNat (keyString key').length := by
  rw [keyMurmur_eq, keyMurmur_eq] at same
  have second := (murmurFinish_cancel same).2
  rw [murmurTail_second, murmurTail_second, UInt64.xor_assoc, UInt64.xor_assoc] at second
  exact (UInt64.xor_right_inj _).1 second

theorem textEnd_short {key : Nat} (short : (keyString key).length ≤ 8) : textEnd key = 0 := by
  rw [textEnd, Nat.sub_eq_zero_of_le short, tailWord, murmurK2_zero]

/-- The end of a long text is far from all others. -/
theorem textEnd_far {key : Nat} (long : 8 < (keyString key).length) : 16 ≤ (textEnd key).toNat ∧
    ∀ d ∈ [1, 2, 3], farFromShort (textEnd key ^^^ UInt64.ofNat d) = true := by
  have most := keyString_length_le key
  have length : (keyString key).length - 8 ∈ [1, 2, 3] := by
    simp only [List.mem_cons, List.not_mem_nil, or_false]
    omega
  exact digitWords_far length
    (tailWord_mem fun i below => keyData_digit (by omega) (by omega))

theorem xor_across {a b x y : UInt64} (same : a ^^^ x = b ^^^ y) : a = b ^^^ (x ^^^ y) := by
  calc a = a ^^^ x ^^^ x := by rw [UInt64.xor_assoc, UInt64.xor_self, UInt64.xor_zero]
    _ = b ^^^ (x ^^^ y) := by rw [same, UInt64.xor_assoc, UInt64.xor_comm y]

/-- Texts of different lengths have different ends. -/
theorem textEnd_ne {key key' : Nat} (longer : (keyString key).length < (keyString key').length) :
    textEnd key ^^^ UInt64.ofNat (keyString key).length ≠
      textEnd key' ^^^ UInt64.ofNat (keyString key').length := by
  intro same
  have most := keyString_length_le key'
  generalize size : (keyString key).length = n at longer same
  generalize size' : (keyString key').length = n' at longer same most
  have number : ∀ k, k ≤ 11 → (UInt64.ofNat k).toNat = k := fun k small => by
    rw [UInt64.toNat_ofNat', Nat.mod_eq_of_lt (by omega)]
  by_cases long' : 8 < n'
  · obtain ⟨large, far⟩ := textEnd_far (long'.trans_eq size'.symm)
    by_cases long : 8 < n
    · -- two words of the tail, in different lengths
      have between : ∃ d ∈ [1, 2, 3], UInt64.ofNat n ^^^ UInt64.ofNat n' = UInt64.ofNat d := by
        obtain ⟨rfl, rfl⟩ | ⟨rfl, rfl⟩ | ⟨rfl, rfl⟩ :
            n = 9 ∧ n' = 10 ∨ n = 9 ∧ n' = 11 ∨ n = 10 ∧ n' = 11 := by omega
        all_goals decide
      obtain ⟨d, member, is⟩ := between
      have moved := xor_across same
      rw [is] at moved
      have bytes : (keyString key).length - 8 ≤ 3 := by omega
      have bits : 2 ^ (8 * ((keyString key).length - 8)) ≤ 2 ^ 24 :=
        Nat.pow_le_pow_right Nat.two_pos (Nat.mul_le_mul_left 8 bytes)
      have short := tailWord_lt (fun i => keyData key (8 + i)) (bytes.trans (by decide))
      exact farFromShort_ne (far d member) (short.trans_le bits) moved
    · -- no word in the tail of one of them
      have moved := xor_across same.symm
      rw [textEnd_short (size.trans_le (Nat.not_lt.1 long)), UInt64.zero_xor] at moved
      have small : (textEnd key').toNat < 2 ^ 4 := by
        rw [moved, UInt64.toNat_xor, number n (by omega), number n' most]
        exact Nat.xor_lt_two_pow (by omega) (by omega)
      omega
  · rw [textEnd_short (size.trans_le (longer.trans_le (Nat.not_lt.1 long')).le),
      textEnd_short (size'.trans_le (Nat.not_lt.1 long')), UInt64.zero_xor, UInt64.zero_xor] at same
    have equal := congrArg UInt64.toNat same
    rw [number n (by omega), number n' most] at equal
    omega

/-- **The 128 bits of the texts tell all keys apart.** -/
theorem keyMurmur_distinct {key key' : Nat} (word : key < 2 ^ 32) (word' : key' < 2 ^ 32)
    (other : key ≠ key') : keyMurmur key ≠ keyMurmur key' := by
  intro same
  rcases Nat.lt_trichotomy (keyString key).length (keyString key').length with less | equal | more
  · exact textEnd_ne less (keyMurmur_second same)
  · apply other
    apply keyString_injective word word'
    apply keyString_of_data equal
    rw [keyMurmur_eq, keyMurmur_eq, ← equal] at same
    have short := (keyString_length_le key).trans_lt (by decide : 11 < 16)
    exact (murmurTail_cancel short (murmurFinish_injective _ same) (.inl rfl)).2
  · exact textEnd_ne more (keyMurmur_second same).symm

/-- The texts of 4096 and of its negative, of four and of five characters. -/
theorem keyMurmur_distinct_of_signs : keyMurmur 4096 ≠ keyMurmur (2 ^ 32 - 4096) :=
  keyMurmur_distinct (by decide) (by decide) (by decide)

end Mixdk
