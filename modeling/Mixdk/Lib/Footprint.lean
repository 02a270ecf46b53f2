/-
# Lib.Footprint -- operations on separate parts of a state commute

A `View` takes a state apart into locations, and into tallies: counters that
operations only add to.  An operation has the footprint `reads`, `writes` when it
leaves every other location alone and what it writes depends on `reads` alone
(`Touches`).  Two operations commute when neither writes what the other reads or
writes (`Touches.commute`); what they add to the tallies never matters.
-/
import Mathlib.Algebra.Group.Basic
import Mathlib.Data.Set.Basic
import Mathlib.Logic.Function.Conjugate

namespace Footprint

set_option autoImplicit false

universe u v w x

/-- A state is what its locations hold and what its tallies amount to. -/
structure View (σ : Type u) (Loc : Type v) (A : Type w) where
  Value : Loc → Type x
  get : (l : Loc) → σ → Value l
  tally : σ → A
  ext : ∀ s t, (∀ l, get l s = get l t) → tally s = tally t → s = t

variable {σ : Type u} {Loc : Type v} {A : Type w} [AddCommMonoid A]

/-- `f` writes `writes` alone, from what it finds in `reads`, and adds to the tallies. -/
structure Touches (view : View.{u, v, w, x} σ Loc A) (f : σ → σ) (reads writes : Set Loc) :
    Prop where
  frame : ∀ s, ∀ l ∉ writes, view.get l (f s) = view.get l s
  depends : ∀ s t, (∀ l ∈ reads, view.get l s = view.get l t) →
    ∀ l ∈ writes, view.get l (f s) = view.get l (f t)
  adds : ∃ a, ∀ s, view.tally (f s) = view.tally s + a

variable {view : View.{u, v, w, x} σ Loc A} {f g : σ → σ} {R R' W W' : Set Loc}

namespace Touches

theorem id : Touches view (fun s => s) ∅ ∅ where
  frame := fun _ _ _ => rfl
  depends := fun _ _ _ _ member => member.elim
  adds := ⟨0, fun _ => (add_zero _).symm⟩

/-- One operation after the other. -/
theorem comp (second : Touches view g R' W') (first : Touches view f R W) :
    Touches view (fun s => g (f s)) (R ∪ R') (W ∪ W') where
  frame := by
    intro s l outside
    rw [Set.mem_union, not_or] at outside
    rw [second.frame _ l outside.2, first.frame s l outside.1]
  depends := by
    intro s t same
    have between : ∀ l, l ∈ R' ∨ l ∈ W → view.get l (f s) = view.get l (f t) := by
      intro l either
      by_cases written : l ∈ W
      · exact first.depends s t (fun k member => same k (.inl member)) l written
      · rcases either with read | inside
        · rw [first.frame s l written, first.frame t l written]
          exact same l (.inr read)
        · exact absurd inside written
    intro l either
    by_cases written : l ∈ W'
    · exact second.depends _ _ (fun k member => between k (.inl member)) l written
    · rw [second.frame _ l written, second.frame _ l written]
      rcases either with inside | inside
      · exact between l (.inr inside)
      · exact absurd inside written
  adds := by
    obtain ⟨a, addsA⟩ := first.adds
    obtain ⟨b, addsB⟩ := second.adds
    refine ⟨a + b, ?_⟩
    intro s
    rw [addsB, addsA, add_assoc]

/-- A footprint may be widened, as long as what is written in addition is read as well. -/
theorem widen (touches : Touches view f R W) (reads : R ⊆ R') (writes : W ⊆ W')
    (kept : ∀ l ∈ W', l ∉ W → l ∈ R') : Touches view f R' W' where
  frame := fun s l outside => touches.frame s l fun inside => outside (writes inside)
  depends := by
    intro s t same l member
    by_cases written : l ∈ W
    · exact touches.depends s t (fun k inside => same k (reads inside)) l written
    · rw [touches.frame s l written, touches.frame t l written]
      exact same l (kept l member written)
  adds := touches.adds

/-- **Operations with separate footprints commute.** -/
theorem commute (first : Touches view f R W) (second : Touches view g R' W')
    (apart : ∀ l ∈ W, l ∉ R' ∧ l ∉ W') (apart' : ∀ l ∈ W', l ∉ R) : Function.Commute f g := by
  intro s
  apply view.ext
  · intro l
    by_cases mine : l ∈ W
    · rw [second.frame _ l (apart l mine).2]
      apply first.depends
      · intro k member
        exact second.frame s k fun other => apart' k other member
      · exact mine
    · rw [first.frame _ l mine]
      by_cases other : l ∈ W'
      · apply second.depends
        · intro k member
          exact (first.frame s k fun written => (apart k written).1 member).symm
        · exact other
      · rw [second.frame _ l other, second.frame _ l other, first.frame _ l mine]
  · obtain ⟨a, addsA⟩ := first.adds
    obtain ⟨b, addsB⟩ := second.adds
    rw [addsA, addsB, addsB, addsA, add_right_comm]

end Touches

end Footprint
