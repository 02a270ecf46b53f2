/-
# Bitmap.SetRefinement -- the bitmap is a finite set with an allocator

What the bitmap of a segment is for: a set of numbers below `N`, with insert, delete and
membership, and an allocator that takes some number that is not in the set (`SetStep`).  The
bytes refine it, call by call (`Bitmap.call_refines`), whatever they hold at first and
wherever the hint points; the hint stays below `N`, and a call that never returns is a
search in a full bitmap (`bitmap_refines_set`).
-/
import Mixdk.Core.Bitmap
import Mixdk.Lib.Transition
import Mathlib.Data.Finset.Filter
import Mathlib.Data.Finset.Erase
import Mathlib.Data.Finset.Range

namespace Mixdk

set_option autoImplicit false

open Transition

/-- A call on a bitmap. -/
inductive BitmapCall
  | setBit (nr : Nat)
  | clearBit (nr : Nat)
  | testBit (nr : Nat)
  | clear
  | nextZeroBit

/-- The bit that the call names is usable. -/
def BitmapCall.InRange (N : Nat) : BitmapCall → Prop
  | .setBit nr | .clearBit nr | .testBit nr => nr < N
  | .clear | .nextZeroBit => True

namespace Bitmap

/-- What the call returns, as an `int` (0 where it returns nothing), and the bitmap it leaves;
`none` where it does not return. -/
def call (b : Bitmap) : BitmapCall → Option (Int × Bitmap)
  | .setBit nr => some ((mixBitmapSetBit b nr).1.toInt, (mixBitmapSetBit b nr).2)
  | .clearBit nr => some ((mixBitmapClearBit b nr).1.toInt, (mixBitmapClearBit b nr).2)
  | .testBit nr => some ((mixBitmapTestBit b nr).toInt, b)
  | .clear => some (0, mixBitmapClear b)
  | .nextZeroBit => mixBitmapNextZeroBit b

/-- The set the usable bits stand for. -/
def members (b : Bitmap) : Finset Nat := (Finset.range b.bits).filter (mixBitmapTestBit b · = true)

end Bitmap

/-- A set of numbers below `N`: what a call answers, and the set it leaves.  Which number the
allocator takes is open. -/
inductive SetStep (N : Nat) : Finset Nat → BitmapCall → Int → Finset Nat → Prop
  | insert (s : Finset Nat) (nr : Nat) :
      SetStep N s (.setBit nr) (decide (nr ∈ s)).toInt (insert nr s)
  | erase (s : Finset Nat) (nr : Nat) :
      SetStep N s (.clearBit nr) (decide (nr ∈ s)).toInt (s.erase nr)
  | member (s : Finset Nat) (nr : Nat) : SetStep N s (.testBit nr) (decide (nr ∈ s)).toInt s
  | empty (s : Finset Nat) : SetStep N s .clear 0 ∅
  | take {s : Finset Nat} {v : Nat} (below : v < N) (free : v ∉ s) :
      SetStep N s .nextZeroBit v (insert v s)

/-! ## Bytes and sets -/

/-- The C code works on signed chars: mask and byte are sign-extended before the `&`. -/
theorem signed_and_eq_zero (mask byte : BitVec 8) :
    (mask.signExtend 32 &&& byte.signExtend 32) = 0#32 ↔ mask &&& byte = 0#8 := by
  rw [← BitVec.signExtend_and]
  constructor
  · intro zero
    apply BitVec.eq_of_getLsbD_eq
    intro i below
    have bit := congrArg (fun y => y.getLsbD i) zero
    have small : i < 32 := by omega
    rw [BitVec.getLsbD_signExtend, decide_eq_true small, if_pos below, Bool.true_and] at bit
    rw [bit, BitVec.getLsbD_zero, BitVec.getLsbD_zero]
  · rintro zero
    rw [zero]
    rfl

namespace Bitmap

variable {b : Bitmap} {nr : Nat}

theorem mem_members : nr ∈ b.members ↔ nr < b.bits ∧ mixBitmapTestBit b nr = true := by
  rw [members, Finset.mem_filter, Finset.mem_range]

theorem members_below (below : nr < b.bits) :
    decide (nr ∈ b.members) = mixBitmapTestBit b nr := by
  rw [Bool.eq_iff_iff, decide_eq_true_eq, mem_members, and_iff_right below]

theorem members_setBit (below : nr < b.bits) :
    (mixBitmapSetBit b nr).2.members = insert nr b.members := by
  ext j
  rw [mem_members, Finset.mem_insert, mem_members, setBit_bits, testBit_setBit, Bool.or_eq_true,
    decide_eq_true_eq]
  constructor
  · rintro ⟨usable, rfl | set⟩
    · exact .inl rfl
    · exact .inr ⟨usable, set⟩
  · rintro (rfl | ⟨usable, set⟩)
    · exact ⟨below, .inl rfl⟩
    · exact ⟨usable, .inr set⟩

theorem members_clearBit (b : Bitmap) (nr : Nat) :
    (mixBitmapClearBit b nr).2.members = b.members.erase nr := by
  ext j
  rw [mem_members, Finset.mem_erase, mem_members, clearBit_bits, testBit_clearBit,
    Bool.and_eq_true, decide_eq_true_eq]
  exact and_left_comm

theorem members_clear (b : Bitmap) : (mixBitmapClear b).members = ∅ := by
  refine Finset.eq_empty_of_forall_notMem fun j member => ?_
  obtain ⟨usable, set⟩ := mem_members.1 member
  rw [clear_bits] at usable
  rw [testBit_clear b usable] at set
  cases set

/-- Full means that every usable bit is set. -/
theorem members_eq_range : b.members = Finset.range b.bits ↔
    ∀ i < b.bits, mixBitmapTestBit b i = true := by
  simp only [members, Finset.filter_eq_self, Finset.mem_range]

/-- Where the hint goes, past a bit below the end, is below the end. -/
theorem hint_below (usable : 0 < b.bytes) {v : Nat} (below : v < b.bits) :
    (v + 1) / b.bits < b.bits := by
  have eight : 8 ≤ b.bits := by
    rw [bits]
    omega
  calc (v + 1) / b.bits ≤ b.bits / b.bits := Nat.div_le_div_right below
    _ = 1 := Nat.div_self (by omega)
    _ < b.bits := by omega

/-- **Each call that returns is one of the set, and keeps the hint below the end.** -/
theorem call_refines {N : Nat} {c : BitmapCall} {z : Int} {b' : Bitmap}
    (hint : b.bits = N ∧ b.nextBit < N) (inRange : c.InRange N)
    (called : b.call c = some (z, b')) :
    SetStep N b.members c z b'.members ∧ b'.bits = N ∧ b'.nextBit < N := by
  obtain ⟨rfl, hint⟩ := hint
  cases c with
  | setBit nr =>
      cases called
      rw [members_setBit inRange, setBit_old, ← members_below inRange]
      exact ⟨.insert _ _, rfl, hint⟩
  | clearBit nr =>
      cases called
      rw [members_clearBit, show (mixBitmapClearBit b nr).1 = mixBitmapTestBit b nr from rfl,
        ← members_below inRange]
      exact ⟨.erase _ _, rfl, hint⟩
  | testBit nr =>
      cases called
      rw [← members_below inRange]
      exact ⟨.member _ _, rfl, hint⟩
  | clear =>
      cases called
      rw [members_clear]
      exact ⟨.empty _, rfl, Nat.zero_lt_of_lt hint⟩
  | nextZeroBit =>
      obtain ⟨d, -, v, -, rfl, below, clear, -, rfl⟩ := nextZeroBit_some hint called
      have free : v ∉ b.members := by
        rw [mem_members, clear]
        exact fun member => Bool.false_ne_true member.2
      have taken : ({ (mixBitmapSetBit b v).2 with nextBit := (v + 1) / b.bits } : Bitmap).members =
          insert v b.members := members_setBit below
      have usable : 0 < b.bytes := by
        rw [bits] at hint
        omega
      rw [taken]
      exact ⟨.take below free, rfl, hint_below usable below⟩

/-- A call does not return exactly when it is a search and every usable bit is set. -/
theorem call_eq_none {c : BitmapCall} (hint : b.nextBit < b.bits) :
    b.call c = none ↔ c = .nextZeroBit ∧ b.members = Finset.range b.bits := by
  rw [members_eq_range, ← nextZeroBit_none_iff b hint]
  cases c with
  | nextZeroBit => exact (and_iff_right rfl).symm
  | _ => exact ⟨fun stuck => (Option.some_ne_none _ stuck).elim, fun searches => by cases searches.1⟩

end Bitmap

/-- **Every history of calls that returns is one of the set, with the same answers, and a
history does not return only in a search that finds the set full.** -/
theorem bitmap_refines_set {b : Bitmap} (hint : b.nextBit < b.bits) {calls : List BitmapCall}
    (inRange : ∀ c ∈ calls, c.InRange b.bits) :
    (∀ out b', answers? Bitmap.call b calls = some (out, b') →
      Answered (SetStep b.bits) b.members calls out b'.members ∧
        b'.bits = b.bits ∧ b'.nextBit < b.bits) ∧
    (answers? Bitmap.call b calls = none → ∃ front back out b',
      calls = front ++ .nextZeroBit :: back ∧ answers? Bitmap.call b front = some (out, b') ∧
        b'.members = Finset.range b.bits) := by
  have refines : ∀ {calls out b'}, (∀ c ∈ calls, c.InRange b.bits) →
      answers? Bitmap.call b calls = some (out, b') →
        Answered (SetStep b.bits) b.members calls out b'.members ∧
          b'.bits = b.bits ∧ b'.nextBit < b.bits := by
    intro calls out b' inRange ran
    exact answers?_refines (I := fun s => s.bits = b.bits ∧ s.nextBit < b.bits)
      (fun _ _ _ _ inv here called => Bitmap.call_refines inv here called) ⟨rfl, hint⟩ inRange ran
  refine ⟨fun _ _ ran => refines inRange ran, fun stuck => ?_⟩
  obtain ⟨front, c, back, out, b', rfl, ran, stays⟩ := answers?_eq_none stuck
  obtain ⟨-, bits, below⟩ := refines (fun c member => inRange c (List.mem_append_left _ member)) ran
  obtain ⟨rfl, full⟩ := (Bitmap.call_eq_none (bits ▸ below)).1 stays
  exact ⟨front, back, out, b', rfl, ran, bits ▸ full⟩

/-- A bitmap of one byte, filled from bit 7 down to a second allocation. -/
theorem bitmap_refines_set_of_byte :
    let calls : List BitmapCall := [.setBit 7, .nextZeroBit, .clearBit 7, .nextZeroBit, .testBit 7]
    let b := mixBitmapInit 8
    (∀ out b', answers? Bitmap.call b calls = some (out, b') →
      Answered (SetStep b.bits) b.members calls out b'.members ∧
        b'.bits = b.bits ∧ b'.nextBit < b.bits) ∧
    (answers? Bitmap.call b calls = none → ∃ front back out b',
      calls = front ++ .nextZeroBit :: back ∧ answers? Bitmap.call b front = some (out, b') ∧
        b'.members = Finset.range b.bits) :=
  bitmap_refines_set (by decide) (by simp [BitmapCall.InRange]; decide)

end Mixdk
