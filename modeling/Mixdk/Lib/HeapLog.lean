/-
# Lib.HeapLog -- the cells a program has allocated

What a program does to its heap, as a log of allocations, accesses and frees.  `run` goes through
a log with the set of cells allocated so far, and stops at the first event that is an error: an
access to a cell that is not allocated (never, or not any more), a free of one, or an allocation
that hands out a cell still in use.  So a log that runs to its end has no use after free and no
double free, and what it ends with is what the program has not given back.
-/
import Mathlib.Data.Finset.Basic

namespace HeapLog

set_option autoImplicit false

universe u

inductive Event (α : Type u)
  | malloc (a : α)
  /-- A read or a write. -/
  | use (a : α)
  | free (a : α)

variable {α : Type u} [DecidableEq α]

def Event.run (live : Finset α) : Event α → Option (Finset α)
  | .malloc a => if a ∈ live then none else some (insert a live)
  | .use a => if a ∈ live then some live else none
  | .free a => if a ∈ live then some (live.erase a) else none

/-- The cells allocated after the log; `none` when it has an error. -/
def run (live : Finset α) : List (Event α) → Option (Finset α)
  | [] => some live
  | e :: log => (e.run live).bind fun live' => run live' log

variable {live live' : Finset α} {log log' : List (Event α)} {a : α} {l : List α}

@[simp] theorem run_nil : run live [] = some live := rfl

theorem run_append :
    run live (log ++ log') = (run live log).bind fun live' => run live' log' := by
  induction log generalizing live with
  | nil => rfl
  | cons e log ih =>
      rw [List.cons_append, run, run, Option.bind_assoc]
      exact congrArg _ (funext fun _ => ih)

theorem run_trans (first : run live log = some live') :
    run live (log ++ log') = run live' log' := by
  rw [run_append, first, Option.bind_some]

@[simp] theorem run_malloc (new : a ∉ live) :
    run live (.malloc a :: log) = run (insert a live) log := by
  rw [run, Event.run, if_neg new, Option.bind_some]

@[simp] theorem run_use (allocated : a ∈ live) : run live (.use a :: log) = run live log := by
  rw [run, Event.run, if_pos allocated, Option.bind_some]

@[simp] theorem run_free (allocated : a ∈ live) :
    run live (.free a :: log) = run (live.erase a) log := by
  rw [run, Event.run, if_pos allocated, Option.bind_some]

/-- Accesses to allocated cells change nothing. -/
theorem run_uses (allocated : ∀ a ∈ l, a ∈ live) : run live (l.map .use ++ log) = run live log := by
  induction l with
  | nil => rfl
  | cons a l ih =>
      rw [List.map_cons, List.cons_append, run_use (allocated a List.mem_cons_self)]
      exact ih fun b member => allocated b (List.mem_cons_of_mem a member)

/-- Each of distinct cells is read and then given back. -/
theorem run_frees (distinct : l.Nodup) (allocated : ∀ a ∈ l, a ∈ live) :
    run live ((l.flatMap fun a => [.use a, .free a]) ++ log) =
      run (live \ l.toFinset) log := by
  induction l generalizing live with
  | nil => simp
  | cons a l ih =>
      obtain ⟨apart, distinct⟩ := List.nodup_cons.1 distinct
      have here : a ∈ live := allocated a List.mem_cons_self
      have rest : ∀ b ∈ l, b ∈ live.erase a := fun b member =>
        Finset.mem_erase.2
          ⟨ne_of_mem_of_not_mem member apart, allocated b (List.mem_cons_of_mem a member)⟩
      rw [List.flatMap_cons, List.append_assoc, List.cons_append, List.cons_append,
        List.nil_append, run_use here, run_free here, ih distinct rest]
      congr 1
      rw [List.toFinset_cons, Finset.sdiff_insert, Finset.erase_sdiff_comm]

end HeapLog
