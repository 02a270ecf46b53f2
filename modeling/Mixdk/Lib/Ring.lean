/-
# Lib.Ring -- a window on a ring of cells

A ring has `C` cells, and a counter that only grows picks cell `counter % C`.  A window
is the stretch of counter values from `lo` on; `Holds` says that the cells of the window
hold a list.  No two values of a window of `C` use one cell (`cell_inj`), so a window
grows at its end without harm to what it holds (`Holds.append`), and shrinks at its
start (`Holds.drop`).

Machine counters are the counters modulo some `M` that `C` divides.  The difference of
two of them is the length of the window (`sub_wrap`).
-/
import Mathlib.Data.List.Basic
import Mathlib.Tactic.Ring

namespace Ring

set_option autoImplicit false

universe u

variable {β : Type u} {C lo : Nat} {cell cell' : Nat → β} {xs ys : List β}

/-- The cells from counter value `lo` on hold `xs`. -/
def Holds (C : Nat) (cell : Nat → β) (lo : Nat) (xs : List β) : Prop :=
  ∀ i x, xs[i]? = some x → cell ((lo + i) % C) = x

/-- A window of at most `C` values uses each cell once. -/
theorem cell_inj {i j : Nat} (inI : i < C) (inJ : j < C) (same : (lo + i) % C = (lo + j) % C) :
    i = j := by
  have quotI := Nat.div_add_mod (lo + i) C
  have quotJ := Nat.div_add_mod (lo + j) C
  rw [same] at quotI
  by_contra other
  rcases Nat.lt_trichotomy ((lo + i) / C) ((lo + j) / C) with less | equal | more
  · have step := Nat.mul_le_mul_left C (Nat.succ_le_of_lt less)
    rw [Nat.mul_succ] at step
    omega
  · rw [equal] at quotI
    omega
  · have step := Nat.mul_le_mul_left C (Nat.succ_le_of_lt more)
    rw [Nat.mul_succ] at step
    omega

/-- The same for counter values. -/
theorem window_inj {i j : Nat} (lowI : lo ≤ i) (inI : i < lo + C) (lowJ : lo ≤ j) (inJ : j < lo + C)
    (same : i % C = j % C) : i = j := by
  obtain ⟨i, rfl⟩ := Nat.exists_eq_add_of_le lowI
  obtain ⟨j, rfl⟩ := Nat.exists_eq_add_of_le lowJ
  rw [cell_inj (by omega) (by omega) same]

@[simp] theorem Holds.nil : Holds C cell lo [] := fun i x at_ => by simp at at_

theorem Holds.congr (holds : Holds C cell lo xs)
    (kept : ∀ i < xs.length, cell' ((lo + i) % C) = cell ((lo + i) % C)) :
    Holds C cell' lo xs := by
  intro i x at_
  have inside := (List.getElem?_eq_some_iff.1 at_).1
  rw [kept i inside]
  exact holds i x at_

/-- The window grows by `ys`. -/
theorem Holds.append (holds : Holds C cell lo xs) (new : Holds C cell (lo + xs.length) ys) :
    Holds C cell lo (xs ++ ys) := by
  intro i x at_
  by_cases early : i < xs.length
  · rw [List.getElem?_append_left early] at at_
    exact holds i x at_
  · have late : xs.length ≤ i := Nat.le_of_not_lt early
    rw [List.getElem?_append_right late] at at_
    have there := new (i - xs.length) x at_
    have index : lo + xs.length + (i - xs.length) = lo + i := by omega
    rwa [index] at there

theorem Holds.singleton {x : β} (at_ : cell (lo % C) = x) : Holds C cell lo [x] := by
  intro i y found
  match i with
  | 0 =>
      obtain rfl := Option.some.inj found
      exact at_
  | i + 1 => simp at found

/-- The window loses its first `n` values. -/
theorem Holds.drop (holds : Holds C cell lo xs) (n : Nat) : Holds C cell (lo + n) (xs.drop n) := by
  intro i x at_
  rw [List.getElem?_drop] at at_
  rw [Nat.add_assoc]
  exact holds (n + i) x at_

/-! ## Copies that go round the end -/

/-- Copying `len` cells from `off` on, in two parts when they go round the end. -/
theorem split_copy (cell cell' src : Nat → β) {off len l : Nat} (start : off < C) (room : len ≤ C)
    (first : l = min len (C - off))
    (split : ∀ p, cell' p = if p < len - l then src (l + p)
      else if off ≤ p ∧ p < off + l then src (p - off) else cell p) :
    (∀ t < len, cell' ((off + t) % C) = src t) ∧
      ∀ p < C, (∀ t < len, p ≠ (off + t) % C) → cell' p = cell p := by
  constructor
  · intro t inside
    by_cases wraps : off + t < C
    · rw [Nat.mod_eq_of_lt wraps, split, if_neg (by omega), if_pos (by omega)]
      congr 1
      omega
    · have round : (off + t) % C = off + t - C := by
        rw [Nat.mod_eq_sub_mod (by omega), Nat.mod_eq_of_lt (by omega)]
      rw [round, split, if_pos (by omega)]
      congr 1
      omega
  · intro p inside outside
    have before : ¬ p < len - l := by
      intro early
      apply outside (C - off + p) (by omega)
      have round : off + (C - off + p) = p + C := by omega
      rw [round, Nat.add_mod_right, Nat.mod_eq_of_lt inside]
    have after : ¬ (off ≤ p ∧ p < off + l) := by
      rintro ⟨low, high⟩
      apply outside (p - off) (by omega)
      have same : off + (p - off) = p := by omega
      rw [same, Nat.mod_eq_of_lt inside]
    rw [split, if_neg before, if_neg after]

/-- The same copy the other way, to memory that held `dst`. -/
theorem split_read (cell dst : Nat → β) {off len l : Nat} (start : off < C) (room : len ≤ C)
    (first : l = min len (C - off)) (p : Nat) :
    (if l ≤ p ∧ p < l + (len - l) then cell (p - l) else if p < l then cell (off + p) else dst p) =
      if p < len then cell ((off + p) % C) else dst p := by
  by_cases inside : p < len
  · rw [if_pos inside]
    by_cases wraps : off + p < C
    · rw [if_neg (by omega), if_pos (by omega), Nat.mod_eq_of_lt wraps]
    · have round : (off + p) % C = p - l := by
        rw [Nat.mod_eq_sub_mod (by omega), Nat.mod_eq_of_lt (by omega)]
        omega
      rw [if_pos (by omega), round]
  · rw [if_neg inside, if_neg (by omega), if_neg (by omega)]

/-! ## Slots of several cells -/

/-- With `C` slots of `e` cells, the cells of a slot are where the slot is. -/
theorem slot_cell {e b : Nat} (inside : b < e) (pos : 0 < C) (slot : Nat) :
    (slot * e + b) % (C * e) = slot % C * e + b := by
  have whole : slot * e + b = C * e * (slot / C) + (slot % C * e + b) := by
    conv_lhs => rw [← Nat.div_add_mod slot C]
    ring
  have last := Nat.mul_le_mul_right e (Nat.succ_le_of_lt (Nat.mod_lt slot pos))
  rw [Nat.succ_mul] at last
  rw [whole, Nat.mul_add_mod, Nat.mod_eq_of_lt (by omega)]

theorem slot_start (slot e t : Nat) :
    (slot % C * e + t) % (C * e) = (slot * e + t) % (C * e) := by
  rw [← Nat.mul_mod_mul_right, Nat.mod_add_mod]

/-- The cells of a list of slots, one slot after another. -/
theorem getElem?_flatten {e i b : Nat} {slots : List (List β)} (whole : ∀ x ∈ slots, x.length = e)
    (inside : b < e) : slots.flatten[i * e + b]? = slots[i]?.bind fun x => x[b]? := by
  induction slots generalizing i with
  | nil => simp
  | cons x slots ih =>
      have length := whole x List.mem_cons_self
      rw [List.flatten_cons]
      match i with
      | 0 => rw [List.getElem?_append_left (by omega)]; simp
      | i + 1 =>
          have index : (i + 1) * e + b - x.length = i * e + b := by
            rw [Nat.succ_mul, length]
            omega
          rw [List.getElem?_append_right (by rw [Nat.succ_mul]; omega), index]
          exact ih fun y member => whole y (List.mem_cons_of_mem x member)

theorem length_flatten {e : Nat} {slots : List (List β)} (whole : ∀ x ∈ slots, x.length = e) :
    slots.flatten.length = slots.length * e := by
  rw [List.length_flatten, List.map_eq_replicate_iff.2 whole, List.sum_replicate_nat]

theorem take_flatten {e : Nat} {slots : List (List β)} (whole : ∀ x ∈ slots, x.length = e)
    (n : Nat) : (slots.take n).flatten = slots.flatten.take (n * e) := by
  induction slots generalizing n with
  | nil => simp
  | cons x slots ih =>
      have length := whole x List.mem_cons_self
      match n with
      | 0 => simp
      | n + 1 =>
          have rest := ih (fun y member => whole y (List.mem_cons_of_mem x member)) n
          have more : (n + 1) * e = x.length + n * e := by rw [Nat.succ_mul, length, Nat.add_comm]
          rw [List.take_succ_cons, List.flatten_cons, List.flatten_cons, rest, more,
            List.take_length_add_append]

theorem drop_flatten {e : Nat} {slots : List (List β)} (whole : ∀ x ∈ slots, x.length = e)
    (n : Nat) : (slots.drop n).flatten = slots.flatten.drop (n * e) := by
  have both : (slots.take n).flatten ++ (slots.drop n).flatten = slots.flatten := by
    rw [← List.flatten_append, List.take_append_drop]
  by_cases short : n ≤ slots.length
  · have length : (slots.take n).flatten.length = n * e := by
      rw [length_flatten fun y member => whole y (List.mem_of_mem_take member),
        List.length_take, Nat.min_eq_left short]
    rw [← both, ← length, List.drop_left]
  · have large := Nat.mul_le_mul_right e (Nat.le_of_not_le short)
    rw [List.drop_eq_nil_of_le (by omega), List.drop_eq_nil_of_le
      (by rw [length_flatten whole]; exact large)]
    rfl

/-- A ring of slots, as a ring of cells. -/
theorem holds_flatten {e : Nat} {bytes : Nat → β} {slots : List (List β)}
    (whole : ∀ x ∈ slots, x.length = e) (pos : 0 < e) (room : 0 < C)
    (holds : Holds C (fun slot => (List.range e).map fun b => bytes (slot * e + b)) lo slots) :
    Holds (C * e) bytes (lo * e) slots.flatten := by
  intro t x at_
  have byte : t % e < e := Nat.mod_lt t pos
  have index : t / e * e + t % e = t := by
    rw [Nat.mul_comm]
    exact Nat.div_add_mod t e
  rw [← index, getElem?_flatten whole byte, Option.bind_eq_some_iff] at at_
  obtain ⟨slot, found, inside⟩ := at_
  rw [← holds _ _ found, List.getElem?_map, List.getElem?_range byte] at inside
  have cell : lo * e + t = (lo + t / e) * e + t % e := by
    rw [Nat.add_mul, Nat.add_assoc, index]
  rw [cell, slot_cell byte room]
  exact Option.some.inj inside

/-! ## Counters that wrap -/

/-- The difference of two wrapped counters is the length of the window between them. -/
theorem sub_wrap {M lo len : Nat} (small : len < M) :
    ((lo + len) % M + (M - lo % M)) % M = len := by
  have pos : 0 < M := by omega
  have below := Nat.mod_lt lo pos
  have whole : (lo + len) % M = (lo % M + len) % M := by rw [Nat.mod_add_mod]
  rw [whole, Nat.mod_add_mod]
  have sum : lo % M + len + (M - lo % M) = len + M := by omega
  rw [sum, Nat.add_mod_right, Nat.mod_eq_of_lt small]

theorem mod_of_wrap {M : Nat} (divides : C ∣ M) (counter : Nat) : counter % M % C = counter % C :=
  Nat.mod_mod_of_dvd counter divides

end Ring
