/-
# Lib.Words -- words in a memory of bytes

A memory is a function from addresses to bytes; a word of `w` bytes is stored with its low
byte first.  A word read where it was stored is the word, up to its width
(`loadWord_storeWord`), and the bytes of a word that was loaded are the bytes it was loaded
from (`byteOf_loadWord`).  So copying a region word by word is copying its bytes, whatever
the width of the words (`copyWords_eq`): two copies need not agree on it.
-/
import Mathlib.Tactic.Ring
import Mathlib.Tactic.Common

namespace Words

set_option autoImplicit false

/-- Byte `i` of a number. -/
def byteOf (n i : Nat) : UInt8 := UInt8.ofNat (n / 256 ^ i)

/-- The word of `w` bytes at address `a`. -/
def loadWord (m : Nat → UInt8) (a : Nat) : Nat → Nat
  | 0 => 0
  | w + 1 => (m a).toNat + 256 * loadWord m (a + 1) w

def storeWord (m : Nat → UInt8) (a w n : Nat) : Nat → UInt8 := fun x =>
  if a ≤ x ∧ x < a + w then byteOf n (x - a) else m x

/-- Copy `k` words of `w` bytes from `s` in `src` to `d`. -/
def copyWords (w : Nat) (src : Nat → UInt8) (s : Nat) (m : Nat → UInt8) (d : Nat) :
    Nat → Nat → UInt8
  | 0 => m
  | k + 1 => storeWord (copyWords w src s m d k) (d + k * w) w (loadWord src (s + k * w) w)

variable {m m' src : Nat → UInt8} {a d i k n s w : Nat}

theorem byteOf_zero (n : Nat) : (byteOf n 0).toNat = n % 256 := by
  rw [byteOf, pow_zero, Nat.div_one]
  exact UInt8.toNat_ofNat'

theorem byteOf_succ (n i : Nat) : byteOf n (i + 1) = byteOf (n / 256) i := by
  rw [byteOf, byteOf, pow_succ', Nat.div_div_eq_div_mul]

/-- A word depends on its own bytes. -/
theorem loadWord_congr (same : ∀ i < w, m' (a + i) = m (d + i)) :
    loadWord m' a w = loadWord m d w := by
  induction w generalizing a d with
  | zero => rfl
  | succ w ih =>
      have first := same 0 (Nat.succ_pos w)
      rw [Nat.add_zero, Nat.add_zero] at first
      rw [loadWord, loadWord, first, ih fun i below => ?_]
      rw [Nat.add_assoc, Nat.add_assoc, Nat.add_comm 1 i]
      exact same (i + 1) (Nat.succ_lt_succ below)

/-- The bytes of a number make up the number. -/
theorem loadWord_of_bytes (bytes : ∀ i < w, m (a + i) = byteOf n i) :
    loadWord m a w = n % 256 ^ w := by
  induction w generalizing a n with
  | zero => rw [loadWord, pow_zero, Nat.mod_one]
  | succ w ih =>
      have first := bytes 0 (Nat.succ_pos w)
      rw [Nat.add_zero] at first
      have rest : loadWord m (a + 1) w = n / 256 % 256 ^ w := ih fun i below => by
        rw [Nat.add_assoc, Nat.add_comm 1 i, bytes (i + 1) (Nat.succ_lt_succ below), byteOf_succ]
      rw [loadWord, first, byteOf_zero, rest, pow_succ', Nat.mod_mul]

theorem loadWord_lt (m : Nat → UInt8) (a w : Nat) : loadWord m a w < 256 ^ w := by
  induction w generalizing a with
  | zero => exact Nat.one_pos
  | succ w ih =>
      have byte := (m a).toNat_lt
      have rest := ih (a + 1)
      rw [loadWord, pow_succ]
      omega

theorem storeWord_inside (m : Nat → UInt8) (a n : Nat) (inside : i < w) :
    storeWord m a w n (a + i) = byteOf n i := by
  rw [storeWord, if_pos ⟨Nat.le_add_right a i, Nat.add_lt_add_left inside a⟩, Nat.add_sub_cancel_left]

theorem storeWord_outside {x : Nat} (outside : x < a ∨ a + w ≤ x) : storeWord m a w n x = m x := by
  rw [storeWord, if_neg (by omega)]

/-- A word is read as it was stored. -/
theorem loadWord_storeWord (m : Nat → UInt8) (a w n : Nat) :
    loadWord (storeWord m a w n) a w = n % 256 ^ w :=
  loadWord_of_bytes fun _ inside => storeWord_inside m a n inside

/-- A store elsewhere leaves a word alone. -/
theorem loadWord_storeWord_of_apart {b v : Nat} (apart : b + v ≤ a ∨ a + w ≤ b) :
    loadWord (storeWord m a w n) b v = loadWord m b v :=
  loadWord_congr fun i inside => storeWord_outside (by omega)

/-- The bytes of a loaded word are the bytes it was loaded from. -/
theorem byteOf_loadWord (m : Nat → UInt8) (a : Nat) (inside : i < w) :
    byteOf (loadWord m a w) i = m (a + i) := by
  induction w generalizing a i with
  | zero => omega
  | succ w ih =>
      have byte := (m a).toNat_lt
      cases i with
      | zero =>
          apply UInt8.toNat_inj.1
          rw [byteOf_zero, loadWord, Nat.add_mul_mod_self_left, Nat.mod_eq_of_lt (by omega),
            Nat.add_zero]
      | succ i =>
          have high : loadWord m a (w + 1) / 256 = loadWord m (a + 1) w := by
            rw [loadWord]
            omega
          rw [byteOf_succ, high, ih (a + 1) (Nat.lt_of_succ_lt_succ inside), Nat.add_assoc,
            Nat.add_comm 1 i]

/-- **Copying words is copying bytes.** -/
theorem copyWords_eq (w : Nat) (src : Nat → UInt8) (s : Nat) (m : Nat → UInt8) (d k : Nat) :
    copyWords w src s m d k = fun x => if d ≤ x ∧ x < d + k * w then src (s + (x - d)) else m x := by
  induction k with
  | zero =>
      funext x
      rw [copyWords, if_neg (by omega)]
  | succ k ih =>
      have words : (k + 1) * w = k * w + w := Nat.succ_mul k w
      funext x
      rw [copyWords]
      by_cases last : d + k * w ≤ x ∧ x < d + k * w + w
      · obtain ⟨i, rfl⟩ := Nat.exists_eq_add_of_le last.1
        have inside : i < w := by omega
        rw [storeWord_inside _ _ _ inside, byteOf_loadWord src _ inside, if_pos (by omega)]
        congr 1
        omega
      · rw [storeWord_outside (by omega), ih]
        simp only
        by_cases before : d ≤ x ∧ x < d + k * w
        · rw [if_pos before, if_pos (by omega)]
        · rw [if_neg before, if_neg (by omega)]

end Words
