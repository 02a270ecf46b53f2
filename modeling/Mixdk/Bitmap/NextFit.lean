/-
# Bitmap.NextFit -- where the search for a free slot starts

`mix_bitmap_next_zero_bit` keeps a hint from one call to the next.  Next-fit wants it right
behind the bit allocated last, `(v + 1) % N`, as the loop of the same function goes on; the
hint is `(v + 1) / N`, which is 0, and 1 after the last bit.  So the search starts over at
each call, and a bit freed below the last allocation is taken at once.

`Allocator` is the bitmap and the bit allocated last, which no code keeps.  The two searches
meet the same bit exactly when one of the two parts that they see in a different order has no
clear bit (`Allocator.Hinted.takes_iff`).
-/
import Mixdk.Core.Bitmap
import Mixdk.Lib.Transition

namespace Mixdk

set_option autoImplicit false

open Transition CyclicSearch

/-- A call of the history. -/
inductive SlotCall
  | nextZeroBit
  | clearBit (nr : Nat)

/-- The bitmap, and the bit that was allocated last. -/
structure Allocator where
  bitmap : Bitmap
  last : Option Nat

namespace Allocator

/-- A bitmap nobody has allocated from. -/
def fresh (size : Nat) : Allocator := { bitmap := mixBitmapInit size, last := none }

/-- `none` where the call does not return. -/
def step (s : Allocator) : SlotCall → Option Allocator
  | .nextZeroBit =>
      (mixBitmapNextZeroBit s.bitmap).map fun found =>
        { bitmap := found.2, last := some found.1.toNat }
  | .clearBit nr => some { s with bitmap := (mixBitmapClearBit s.bitmap nr).2 }

/-- Where a next-fit search starts. -/
def cursor (s : Allocator) : Nat :=
  match s.last with
  | none => 0
  | some v => (v + 1) % s.bitmap.bits

/-- Some usable bit is clear. -/
def HasRoom (s : Allocator) : Prop :=
  ∃ i < s.bitmap.bits, mixBitmapTestBit s.bitmap i = false

/-- The next allocation returns, and takes the first clear bit behind the last one. -/
def NextFit (s : Allocator) : Prop :=
  ∃ (v : Nat) (b : Bitmap), mixBitmapNextZeroBit s.bitmap = some ((v : Int), b) ∧
    First (mixBitmapTestBit s.bitmap) s.bitmap.bits s.cursor v

/-- The bits up to the last allocation, or those behind it, are all set; after the last bit of
the bitmap, bit 0, or all the others. -/
def Turned (s : Allocator) : Prop :=
  ∀ v, s.last = some v →
    let turn := if v + 1 = s.bitmap.bits then 1 else v + 1
    (∀ i < turn, mixBitmapTestBit s.bitmap i = true) ∨
      ∀ i, turn ≤ i → i < s.bitmap.bits → mixBitmapTestBit s.bitmap i = true

/-- The hint that the code keeps. -/
structure Hinted (s : Allocator) : Prop where
  usable : 0 < s.bitmap.bytes
  below : ∀ v, s.last = some v → v < s.bitmap.bits
  hint : s.bitmap.nextBit = match s.last with
    | none => 0
    | some v => (v + 1) / s.bitmap.bits

variable {s t : Allocator}

theorem Hinted.eight (hinted : s.Hinted) : 8 ≤ s.bitmap.bits := by
  have := hinted.usable
  rw [Bitmap.bits]
  omega

/-- The division makes the hint 0, or 1 behind the last bit. -/
theorem Hinted.hint_of_last (hinted : s.Hinted) {v : Nat} (last : s.last = some v) :
    s.bitmap.nextBit = if v + 1 = s.bitmap.bits then 1 else 0 := by
  have below := hinted.below v last
  have hint : s.bitmap.nextBit = (v + 1) / s.bitmap.bits := by rw [hinted.hint, last]
  rw [hint]
  by_cases ends : v + 1 = s.bitmap.bits
  · rw [if_pos ends, ends]
    exact Nat.div_self (by omega)
  · rw [if_neg ends]
    exact Nat.div_eq_of_lt (by omega)

theorem Hinted.nextBit_lt (hinted : s.Hinted) : s.bitmap.nextBit < s.bitmap.bits := by
  have eight := hinted.eight
  cases last : s.last with
  | none =>
      rw [hinted.hint, last]
      simp only
      omega
  | some v =>
      rw [hinted.hint_of_last last]
      split <;> omega

theorem Hinted.fresh {size : Nat} (usable : 8 ≤ size) : (fresh size).Hinted where
  usable := Nat.div_pos usable (by omega)
  below := by rintro v ⟨⟩
  hint := rfl

theorem Hinted.step (hinted : s.Hinted) {c : SlotCall} (stepped : s.step c = some t) :
    t.Hinted := by
  cases c with
  | clearBit nr =>
      cases stepped
      exact ⟨hinted.usable, hinted.below, hinted.hint⟩
  | nextZeroBit =>
      obtain ⟨⟨z, b⟩, found, rfl⟩ := Option.map_eq_some_iff.1 stepped
      obtain ⟨d, -, v, -, rfl, below, -, -, rfl⟩ := nextZeroBit_some hinted.nextBit_lt found
      refine ⟨hinted.usable, ?_, ?_⟩
      · rintro w ⟨⟩
        exact below
      · rfl

/-- With room, the code takes the first clear bit from its hint. -/
theorem Hinted.first_from_hint (hinted : s.Hinted) (room : s.HasRoom) :
    ∃ (v : Nat) (b : Bitmap), mixBitmapNextZeroBit s.bitmap = some ((v : Int), b) ∧
      First (mixBitmapTestBit s.bitmap) s.bitmap.bits s.bitmap.nextBit v := by
  cases found : mixBitmapNextZeroBit s.bitmap with
  | none =>
      obtain ⟨i, below, clear⟩ := room
      rw [(nextZeroBit_none_iff _ hinted.nextBit_lt).1 found i below] at clear
      cases clear
  | some answer =>
      obtain ⟨z, b⟩ := answer
      obtain ⟨d, small, v, at_, rfl, -, clear, before, -⟩ :=
        nextZeroBit_some hinted.nextBit_lt found
      exact ⟨v, b, rfl, d, small, at_, clear, before⟩

/-- There is a first clear bit from anywhere. -/
theorem HasRoom.first (room : s.HasRoom) {pos : Nat} (start : pos < s.bitmap.bits) :
    ∃ v, First (mixBitmapTestBit s.bitmap) s.bitmap.bits pos v := by
  cases found : cyclicFind (mixBitmapTestBit s.bitmap) s.bitmap.bits s.bitmap.bits pos with
  | none =>
      obtain ⟨i, below, clear⟩ := room
      rw [(cyclicFind_none_iff start).1 found i below] at clear
      cases clear
  | some v => exact ⟨v, cyclicFind_eq_some start found⟩

theorem Hinted.cursor_lt (hinted : s.Hinted) : s.cursor < s.bitmap.bits := by
  have eight := hinted.eight
  rw [cursor]
  split
  · omega
  · exact Nat.mod_lt _ (by omega)

/-- The code's search and a next-fit search meet the same bit exactly where one of the two
parts is full. -/
theorem Hinted.same_iff_turned (hinted : s.Hinted) {v w : Nat}
    (code : First (mixBitmapTestBit s.bitmap) s.bitmap.bits s.bitmap.nextBit v)
    (nextFit : First (mixBitmapTestBit s.bitmap) s.bitmap.bits s.cursor w) :
    v = w ↔ s.Turned := by
  have eight := hinted.eight
  cases last : s.last with
  | none =>
      have hint : s.bitmap.nextBit = s.cursor := by rw [hinted.hint, cursor, last]
      rw [hint] at code
      have trivial_ : s.Turned := fun v some_ => by rw [last] at some_; cases some_
      exact iff_of_true (nextFit.unique code) trivial_
  | some u =>
      have below := hinted.below u last
      have turned : s.Turned ↔
          (∀ i < if u + 1 = s.bitmap.bits then 1 else u + 1,
            mixBitmapTestBit s.bitmap i = true) ∨
          ∀ i, (if u + 1 = s.bitmap.bits then 1 else u + 1) ≤ i → i < s.bitmap.bits →
            mixBitmapTestBit s.bitmap i = true := by
        rw [Turned, last]
        constructor
        · exact fun all => all u rfl
        · rintro one _ ⟨⟩
          exact one
      rw [hinted.hint_of_last last] at code
      have at_ : s.cursor = (u + 1) % s.bitmap.bits := by rw [cursor, last]
      rw [at_] at nextFit
      by_cases ends : u + 1 = s.bitmap.bits
      · -- behind the last bit the code starts at 1 and next-fit at 0
        rw [if_pos ends] at code
        rw [ends, Nat.mod_self] at nextFit
        rw [turned, if_pos ends, eq_comm]
        exact first_same_iff (by omega) nextFit code
      · -- elsewhere the code starts at 0 and next-fit behind the last allocation
        rw [if_neg ends] at code
        rw [Nat.mod_eq_of_lt (by omega)] at nextFit
        rw [turned, if_neg ends]
        exact first_same_iff (by omega) code nextFit

theorem Hinted.takes_iff (hinted : s.Hinted) (room : s.HasRoom) :
    s.NextFit ↔ s.Turned := by
  obtain ⟨v, b, found, code⟩ := hinted.first_from_hint room
  obtain ⟨w, nextFit⟩ := room.first hinted.cursor_lt
  rw [← hinted.same_iff_turned code nextFit]
  constructor
  · rintro ⟨u, b', found', takes⟩
    rw [found, Option.some.injEq, Prod.mk.injEq, Int.natCast_inj] at found'
    rw [found'.1]
    exact nextFit.unique takes
  · rintro rfl
    exact ⟨v, b, found, nextFit⟩

end Allocator

/-- At each allocation of the history that is made while a bit is clear, `P` holds of the
allocator. -/
def AtAllocations (P : Allocator → Prop) (start : Allocator) (calls : List SlotCall) : Prop :=
  ∀ front back s, calls = front ++ .nextZeroBit :: back →
    exec Allocator.step start front = some s → s.HasRoom → P s

/-- **A history of allocations and frees is next-fit exactly when at each allocation one of the
parts before and behind the last allocation is full.** -/
theorem nextFit_iff_turned {size : Nat} (usable : 8 ≤ size) (calls : List SlotCall) :
    AtAllocations Allocator.NextFit (.fresh size) calls ↔
      AtAllocations Allocator.Turned (.fresh size) calls := by
  have hinted : ∀ {front s}, exec Allocator.step (.fresh size) front = some s → s.Hinted :=
    fun ran => exec_invariant (fun _ _ _ inv stepped => inv.step stepped) ran (.fresh usable)
  constructor
  · intro nextFit front back s split ran room
    exact ((hinted ran).takes_iff room).1 (nextFit front back s split ran room)
  · intro turned front back s split ran room
    exact ((hinted ran).takes_iff room).2 (turned front back s split ran room)

/-- The last of eight bits is freed after all were taken, and taken again. -/
theorem nextFit_iff_turned_of_byte :
    let calls : List SlotCall := List.replicate 8 .nextZeroBit ++ [.clearBit 7, .nextZeroBit]
    AtAllocations Allocator.NextFit (.fresh 8) calls ↔
      AtAllocations Allocator.Turned (.fresh 8) calls :=
  nextFit_iff_turned (by decide) _

/-- Bit 0 is taken, freed, and taken again at once, with seven others clear. -/
theorem nextFit_reuses_freed :
    ¬ AtAllocations Allocator.NextFit (.fresh 8) [.nextZeroBit, .clearBit 0, .nextZeroBit] := by
  intro nextFit
  obtain ⟨s, ran, last, first, second⟩ : ∃ s : Allocator,
      exec Allocator.step (.fresh 8) [.nextZeroBit, .clearBit 0] = some s ∧ s.last = some 0 ∧
        mixBitmapTestBit s.bitmap 0 = false ∧ mixBitmapTestBit s.bitmap 1 = false :=
    ⟨_, rfl, rfl, by decide, by decide⟩
  have hinted : s.Hinted :=
    exec_invariant (fun _ _ _ inv stepped => inv.step stepped) ran (.fresh (by decide))
  have eight := hinted.eight
  have room : s.HasRoom := ⟨0, by omega, first⟩
  have reused := nextFit _ [] s rfl ran room
  rcases (hinted.takes_iff room).1 reused 0 last with head | tail
  · have set := head 0 (by split <;> omega)
    rw [first] at set
    cases set
  · have set := tail 1 (by split <;> omega) (by omega)
    rw [second] at set
    cases set

end Mixdk
