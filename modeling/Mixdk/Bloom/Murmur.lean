/-
# Bloom.Murmur -- the hash of the bloom filter

`MurmurHash3_x64_128` of `mix_bloom_filter.c` takes in a key in blocks of sixteen bytes, with a last
block that may be shorter, and stirs the two words it has.  Every step can be undone: from the words
before it what it takes in can be told, and from what it takes in the words before it.  So two keys of
one length that differ in one block only have different hashes (`murmurHash_one_block`).

`hash_func` hashes the text of the key; its two numbers are the halves of the first word
(`keyChecksum`).
-/
import Mixdk.Bloom.Filter
import Mixdk.Hash.KeyText
import Mixdk.Lib.BitMix
import Mixdk.Lib.Words

namespace Mixdk

set_option autoImplicit false

def rotl64 (x r : UInt64) : UInt64 := (x <<< r) ||| (x >>> (64 - r))

/-- The finalization mix. -/
def fmix64 (k : UInt64) : UInt64 :=
  let k := k ^^^ (k >>> 33)
  let k := k * 0xff51afd7ed558ccd
  let k := k ^^^ (k >>> 33)
  let k := k * 0xc4ceb9fe1a85ec53
  k ^^^ (k >>> 33)

def murmurC1 : UInt64 := 0x87c37b91114253d5

def murmurC2 : UInt64 := 0x4cf5ad432745937f

/-- What is done with `k1` before it is xored into `h1`. -/
def murmurK1 (k1 : UInt64) : UInt64 := rotl64 (k1 * murmurC1) 31 * murmurC2

/-- What is done with `k2` before it is xored into `h2`. -/
def murmurK2 (k2 : UInt64) : UInt64 := rotl64 (k2 * murmurC2) 33 * murmurC1

/-- `h1` and `h2`, or `k1` and `k2`. -/
abbrev MurmurPair := UInt64 × UInt64

/-- One turn of the body. -/
def murmurTurn (h k : MurmurPair) : MurmurPair :=
  let h1 := h.1 ^^^ murmurK1 k.1
  let h1 := rotl64 h1 27
  let h1 := h1 + h.2
  let h1 := h1 * 5 + 0x52dce729
  let h2 := h.2 ^^^ murmurK2 k.2
  let h2 := rotl64 h2 31
  let h2 := h2 + h1
  let h2 := h2 * 5 + 0x38495ab5
  (h1, h2)

/-- `getblock`: the low byte of a word stands first. -/
def getblock (data : Nat → UInt8) (i : Nat) : UInt64 := UInt64.ofNat (Words.loadWord data (8 * i) 8)

/-- The cases of the tail from `case n` down to the first byte of a word. -/
def tailWord (tail : Nat → UInt8) : Nat → UInt64 → UInt64
  | 0, k => k
  | n + 1, k => tailWord tail n (k ^^^ ((tail n).toUInt64 <<< UInt64.ofNat (8 * n)))

/-- The tail of `n` bytes, below 16. -/
def murmurTail (tail : Nat → UInt8) (n : Nat) (h : MurmurPair) : MurmurPair :=
  let h2 := if 8 < n then h.2 ^^^ murmurK2 (tailWord (fun i => tail (8 + i)) (n - 8) 0) else h.2
  let h1 := if 0 < n then h.1 ^^^ murmurK1 (tailWord tail (min n 8) 0) else h.1
  (h1, h2)

def murmurFinish (len : Nat) (h : MurmurPair) : MurmurPair :=
  let h1 := h.1 ^^^ UInt64.ofNat len
  let h2 := h.2 ^^^ UInt64.ofNat len
  let h1 := h1 + h2
  let h2 := h2 + h1
  let h1 := fmix64 h1
  let h2 := fmix64 h2
  let h1 := h1 + h2
  let h2 := h2 + h1
  (h1, h2)

/-- `MurmurHash3_x64_128` of the `len` bytes at `data`: the two words it writes to `out`. -/
def murmurHash3X64128 (data : Nat → UInt8) (len : Nat) (seed : UInt32) : MurmurPair :=
  let nblocks := len / 16
  let h := BitMix.absorb murmurTurn (seed.toUInt64, seed.toUInt64)
    (fun i => (getblock data (i * 2 + 0), getblock data (i * 2 + 1))) nblocks
  let h := murmurTail (fun i => data (nblocks * 16 + i)) (len % 16) h
  murmurFinish len h

def SALT_CONSTANT : UInt32 := 0x97c29b3a

/-- The text of a key in memory. -/
def keyData (key : Nat) : Nat → UInt8 := fun i => UInt8.ofNat ((keyString key).getD i 0)

/-- The hash of a key's text. -/
def keyMurmur (key : Nat) : MurmurPair :=
  murmurHash3X64128 (keyData key) (keyString key).length SALT_CONSTANT

/-- `checksum[0]` and `checksum[1]` of `hash_func`. -/
def keyChecksum : Checksum := fun key =>
  ((keyMurmur key).1.toNat % 2 ^ 32, (keyMurmur key).1.toNat / 2 ^ 32)

example : keyChecksum 4096 = (3162885852, 1702379129) := by decide +kernel

/-! ## Steps that can be undone -/

/-- A function on machine words that mixes as a number loses nothing. -/
theorem injective_of_mixes {f : UInt64 → UInt64} {g : Nat → Nat} (mixes : BitMix.Mixes 64 g)
    (is : ∀ x, (f x).toNat = g x.toNat) : Function.Injective f := by
  intro x y same
  apply UInt64.toNat_inj.1
  apply mixes.injOn x.toNat_lt y.toNat_lt
  rw [← is, ← is, same]

theorem mulOdd_injective {c : UInt64} (odd : Odd c.toNat) : Function.Injective (· * c) :=
  injective_of_mixes (BitMix.mulOdd_mixes odd) fun x => UInt64.toNat_mul x c

theorem toNat_rotl64 {r : UInt64} (some_bit : 0 < r.toNat) (inside : r.toNat < 64) (x : UInt64) :
    (rotl64 x r).toNat = BitMix.rotate 64 r.toNat x.toNat := by
  have down : (64 - r).toNat = 64 - r.toNat := UInt64.toNat_sub_of_le _ _ inside.le
  rw [rotl64, UInt64.toNat_or, UInt64.toNat_shiftLeft, UInt64.toNat_shiftRight, down,
    Nat.mod_eq_of_lt inside, Nat.mod_eq_of_lt (Nat.sub_lt (by decide) some_bit), BitMix.rotate]

theorem rotl64_injective {r : UInt64} (some_bit : 0 < r.toNat) (inside : r.toNat < 64) :
    Function.Injective (rotl64 · r) :=
  injective_of_mixes (BitMix.rotate_mixes inside.le) (toNat_rotl64 some_bit inside)

theorem fmix64_injective : Function.Injective fmix64 := by
  have shift : Function.Injective fun k : UInt64 => k ^^^ (k >>> 33) :=
    injective_of_mixes (g := BitMix.xorShift 33) (BitMix.xorShift_mixes (by decide)) fun x => by
      rw [UInt64.toNat_xor, UInt64.toNat_shiftRight]
      rfl
  exact shift.comp <| (mulOdd_injective (c := 0xc4ceb9fe1a85ec53) (by decide)).comp <|
    shift.comp <| (mulOdd_injective (c := 0xff51afd7ed558ccd) (by decide)).comp shift

theorem murmurK1_injective : Function.Injective murmurK1 :=
  (mulOdd_injective (c := murmurC2) (by decide)).comp <|
    (rotl64_injective (r := 31) (by decide) (by decide)).comp <|
    mulOdd_injective (c := murmurC1) (by decide)

theorem murmurK2_injective : Function.Injective murmurK2 :=
  (mulOdd_injective (c := murmurC1) (by decide)).comp <|
    (rotl64_injective (r := 33) (by decide) (by decide)).comp <|
    mulOdd_injective (c := murmurC2) (by decide)

/-! ## The body -/

/-- The words before a turn can be told from those after it, and so can the block. -/
theorem murmurTurn_cancel {h h' k k' : MurmurPair} (same : murmurTurn h k = murmurTurn h' k')
    (either : h = h' ∨ k = k') : h = h' ∧ k = k' := by
  have turned : ∀ {x x' y y' c r : UInt64}, 0 < r.toNat → r.toNat < 64 → y = y' →
      (rotl64 x r + y) * 5 + c = (rotl64 x' r + y') * 5 + c → x = x' := by
    rintro x x' y y' c r some_bit inside rfl equal
    have product := mulOdd_injective (c := 5) (by decide) ((UInt64.add_left_inj c).1 equal)
    exact rotl64_injective some_bit inside ((UInt64.add_left_inj y).1 product)
  have first := congrArg Prod.fst same
  have second := congrArg Prod.snd same
  have low := turned (r := 31) (by decide) (by decide) first second
  rcases either with rfl | rfl
  · have high := turned (r := 27) (by decide) (by decide) rfl first
    exact ⟨rfl, Prod.ext (murmurK1_injective ((UInt64.xor_right_inj _).1 high))
      (murmurK2_injective ((UInt64.xor_right_inj _).1 low))⟩
  · have h2 : h.2 = h'.2 := (UInt64.xor_left_inj _).1 low
    have high := turned (r := 27) (by decide) (by decide) h2 first
    exact ⟨Prod.ext ((UInt64.xor_left_inj _).1 high) h2, rfl⟩

theorem murmurTurn_keeps (k : MurmurPair) : Function.Injective (murmurTurn · k) :=
  fun _ _ same => (murmurTurn_cancel same (.inr rfl)).1

theorem murmurTurn_takes (h : MurmurPair) : Function.Injective (murmurTurn h) :=
  fun _ _ same => (murmurTurn_cancel same (.inl rfl)).2

theorem getblock_same {data data' : Nat → UInt8} {i : Nat} (same : getblock data i = getblock data' i)
    {j : Nat} (inside : j < 8) : data (8 * i + j) = data' (8 * i + j) := by
  have words : Words.loadWord data (8 * i) 8 = Words.loadWord data' (8 * i) 8 := by
    have number := congrArg UInt64.toNat same
    rw [getblock, getblock, UInt64.toNat_ofNat', UInt64.toNat_ofNat'] at number
    have small : ∀ d, Words.loadWord d (8 * i) 8 < 2 ^ 64 := fun d =>
      (Words.loadWord_lt d _ 8).trans_eq (by decide)
    rwa [Nat.mod_eq_of_lt (small data), Nat.mod_eq_of_lt (small data')] at number
  rw [← Words.byteOf_loadWord data (8 * i) inside, words, Words.byteOf_loadWord data' (8 * i) inside]

/-! ## The tail -/

/-- The bits of a word of the tail are those of its bytes. -/
theorem tailWord_testBit (tail : Nat → UInt8) {n i : Nat} (word : n ≤ 8) (inside : i < 64) (k : UInt64) :
    (tailWord tail n k).toNat.testBit i =
      (k.toNat.testBit i ^^ (decide (i / 8 < n) && (tail (i / 8)).toNat.testBit (i % 8))) := by
  induction n generalizing k with
  | zero => simp [tailWord]
  | succ n ih =>
      have shift : (UInt64.ofNat (8 * n)).toNat % 64 = 8 * n := by
        rw [UInt64.toNat_ofNat']
        omega
      rw [tailWord, ih (by omega), UInt64.toNat_xor, Nat.testBit_xor, UInt64.toNat_shiftLeft, shift,
        Nat.testBit_mod_two_pow, Nat.testBit_shiftLeft, UInt8.toNat_toUInt64, Bool.xor_assoc]
      congr 1
      rw [decide_eq_true inside, Bool.true_and]
      rcases Nat.lt_trichotomy (i / 8) n with before | here | after
      · have below : ¬ i ≥ 8 * n := by omega
        simp only [decide_eq_false below, Bool.false_and, Bool.false_xor, decide_eq_true before,
          decide_eq_true (before.trans n.lt_succ_self)]
      · have above : i ≥ 8 * n := by omega
        have place : i - 8 * n = i % 8 := by omega
        simp only [here, decide_eq_true above, place, lt_irrefl, n.lt_succ_self, decide_false,
          decide_true, Bool.false_and, Bool.xor_false]
      · have above : i ≥ 8 * n := by omega
        -- the byte has no bits there
        have byte : (tail n).toNat < 2 ^ (i - 8 * n) :=
          (tail n).toNat_lt.trans_le (Nat.pow_le_pow_right (by decide) (by omega))
        simp only [decide_eq_true above, Nat.testBit_lt_two_pow byte, Nat.not_lt.2 after.le,
          Nat.not_lt.2 (Nat.succ_le_of_lt after), decide_false, Bool.and_false, Bool.false_and,
          Bool.xor_false]

theorem tailWord_same {tail tail' : Nat → UInt8} {n : Nat} (word : n ≤ 8)
    (same : tailWord tail n 0 = tailWord tail' n 0) {i : Nat} (inside : i < n) :
    tail i = tail' i := by
  apply UInt8.toNat_inj.1
  apply Nat.eq_of_testBit_eq
  intro j
  by_cases bit : j < 8
  · have place : (8 * i + j) / 8 = i ∧ (8 * i + j) % 8 = j := by omega
    have bits := congrArg (fun k => k.toNat.testBit (8 * i + j)) same
    simp only [tailWord_testBit _ word (show 8 * i + j < 64 by omega), place, decide_eq_true inside,
      Bool.true_and, Bool.xor_right_inj] at bits
    exact bits
  · have none_ : ∀ b : UInt8, b.toNat.testBit j = false := fun b => Nat.testBit_lt_two_pow
      (b.toNat_lt.trans_le (Nat.pow_le_pow_right (by decide) (Nat.not_lt.1 bit)))
    rw [none_, none_]

theorem tailWord_congr {tail tail' : Nat → UInt8} {n : Nat} (same : ∀ i < n, tail i = tail' i)
    (k : UInt64) : tailWord tail n k = tailWord tail' n k := by
  induction n generalizing k with
  | zero => rfl
  | succ n ih =>
      rw [tailWord, tailWord, same n n.lt_succ_self,
        ih fun i below => same i (below.trans n.lt_succ_self)]

/-- The words before the tail can be told from those after it, and so can the tail. -/
theorem murmurTail_cancel {tail tail' : Nat → UInt8} {n : Nat} (short : n < 16) {h h' : MurmurPair}
    (same : murmurTail tail n h = murmurTail tail' n h')
    (either : h = h' ∨ ∀ i < n, tail i = tail' i) : h = h' ∧ ∀ i < n, tail i = tail' i := by
  have first := congrArg Prod.fst same
  have second := congrArg Prod.snd same
  simp only [murmurTail] at first second
  rcases either with rfl | bytes
  · refine ⟨rfl, fun i inside => ?_⟩
    by_cases low : i < 8
    · rw [if_pos (Nat.zero_lt_of_lt inside), if_pos (Nat.zero_lt_of_lt inside),
        UInt64.xor_right_inj] at first
      exact tailWord_same (Nat.min_le_right n 8) (murmurK1_injective first)
        (Nat.lt_min.2 ⟨inside, low⟩)
    · have long : 8 < n := by omega
      rw [if_pos long, if_pos long, UInt64.xor_right_inj] at second
      have byte := tailWord_same (by omega) (murmurK2_injective second)
        (show i - 8 < n - 8 by omega)
      rwa [Nat.add_sub_cancel' (Nat.not_lt.1 low)] at byte
  · have front : ∀ i < min n 8, tail i = tail' i := fun i below => bytes i (Nat.lt_min.1 below).1
    have back : ∀ i < n - 8, tail (8 + i) = tail' (8 + i) := fun i below => bytes (8 + i) (by omega)
    rw [tailWord_congr front] at first
    rw [tailWord_congr back] at second
    refine ⟨Prod.ext ?_ ?_, bytes⟩
    · split at first
      next => exact (UInt64.xor_left_inj _).1 first
      next => exact first
    · split at second
      next => exact (UInt64.xor_left_inj _).1 second
      next => exact second

/-! ## The whole -/

/-- Before the length is mixed in, the words can be told from those at the end. -/
theorem murmurFinish_cancel {len len' : Nat} {h h' : MurmurPair}
    (same : murmurFinish len h = murmurFinish len' h') :
    h.1 ^^^ UInt64.ofNat len = h'.1 ^^^ UInt64.ofNat len' ∧
      h.2 ^^^ UInt64.ofNat len = h'.2 ^^^ UInt64.ofNat len' := by
  have sums : ∀ {x x' y y' : UInt64}, x + y = x' + y' → y + (x + y) = y' + (x' + y') →
      x = x' ∧ y = y' := by
    intro x x' y y' sum total
    rw [sum] at total
    have right := (UInt64.add_left_inj _).1 total
    rw [right] at sum
    exact ⟨(UInt64.add_left_inj _).1 sum, right⟩
  obtain ⟨first, second⟩ := sums (congrArg Prod.fst same) (congrArg Prod.snd same)
  exact sums (fmix64_injective first) (fmix64_injective second)

theorem murmurFinish_injective (len : Nat) : Function.Injective (murmurFinish len) := by
  intro h h' same
  obtain ⟨first, second⟩ := murmurFinish_cancel same
  exact Prod.ext ((UInt64.xor_left_inj _).1 first) ((UInt64.xor_left_inj _).1 second)

/-- **Two keys of one length that differ within one block of sixteen bytes, and nowhere else, have
different hashes.** -/
theorem murmurHash_one_block {data data' : Nat → UInt8} {len block : Nat} {seed : UInt32}
    (elsewhere : ∀ p < len, p / 16 ≠ block → data p = data' p) {p : Nat} (inside : p < len)
    (differ : data p ≠ data' p) :
    murmurHash3X64128 data len seed ≠ murmurHash3X64128 data' len seed := by
  intro same
  apply differ
  simp only [murmurHash3X64128] at same
  have tails := murmurFinish_injective len same
  have short : len % 16 < 16 := Nat.mod_lt len (by decide)
  have blocks : ∀ i < len / 16, i ≠ block →
      (getblock data (i * 2 + 0), getblock data (i * 2 + 1)) =
        (getblock data' (i * 2 + 0), getblock data' (i * 2 + 1)) := by
    intro i inside other
    have words : ∀ j < 2, getblock data (i * 2 + j) = getblock data' (i * 2 + j) := by
      intro j half
      have bytes : ∀ b < 8, data (8 * (i * 2 + j) + b) = data' (8 * (i * 2 + j) + b) :=
        fun b byte => elsewhere _ (by omega) (by omega)
      exact congrArg UInt64.ofNat (Words.loadWord_congr bytes)
    rw [words 0 (by decide), words 1 (by decide)]
  by_cases here : p / 16 = block
  · by_cases body : block < len / 16
    · -- the tails are the same, so the words after the body are
      have after := (murmurTail_cancel short tails (.inr fun i below =>
        elsewhere _ (by omega) (by omega))).1
      obtain ⟨first, second⟩ := Prod.mk.inj <| BitMix.absorb_one_block murmurTurn_keeps
        murmurTurn_takes blocks after (p / 16) (here ▸ body)
      by_cases low : p % 16 < 8
      · have byte := getblock_same first low
        rwa [show 8 * (p / 16 * 2 + 0) + p % 16 = p by omega] at byte
      · have byte := getblock_same second (show p % 16 - 8 < 8 by omega)
        rwa [show 8 * (p / 16 * 2 + 1) + (p % 16 - 8) = p by omega] at byte
    · -- the words before the tail are the same, so the tails are
      have all := fun i (below : i < len / 16) => blocks i below (by omega)
      have before := (murmurTail_cancel short tails (.inl (BitMix.absorb_congr all))).2
      have byte := before (p - len / 16 * 16) (by omega)
      rwa [Nat.add_sub_cancel' (by omega)] at byte
  · exact elsewhere p inside here

/-- Two keys of forty bytes, the same from the sixteenth byte on. -/
theorem murmurHash_one_block_of_forty :
    let data : Nat → UInt8 := fun _ => 7
    let data' : Nat → UInt8 := Function.update data 3 8
    murmurHash3X64128 data 40 0 ≠ murmurHash3X64128 data' 40 0 := by
  intro data data'
  have elsewhere : ∀ p < 40, p / 16 ≠ 0 → data p = data' p := by
    intro p _ other
    have apart : p ≠ 3 := by
      rintro rfl
      exact other rfl
    exact (Function.update_of_ne apart 8 data).symm
  exact murmurHash_one_block elsewhere (show 3 < 40 by decide) (by decide)

end Mixdk
