/-
# Lib.StoreLog -- logs of loads and stores

Several writers load from and store to one store of keyed values; a log lists what they
did, in the order it took effect, with the values.  In a `Truthful` log each load has the
value the log so far leaves at its key (`replay`).  The log restricted to one writer is
what that writer sees, and for a key that no other writer stores to it is all that
matters: each load has the value of the writer's own latest store (`Truthful.own_load`).
-/
import Mathlib.Logic.Function.Basic
import Mathlib.Tactic.Common

namespace StoreLog

set_option autoImplicit false

universe u v w

variable {ι : Type u} {κ : Type v} {ν : Type w}

inductive Event (ι : Type u) (κ : Type v) (ν : Type w)
  | loaded (i : ι) (k : κ) (v : ν)
  | stored (i : ι) (k : κ) (v : ν)

def Event.writer : Event ι κ ν → ι
  | .loaded i _ _ | .stored i _ _ => i

@[simp] theorem writer_loaded (i : ι) (k : κ) (v : ν) : (Event.loaded i k v).writer = i := rfl

@[simp] theorem writer_stored (i : ι) (k : κ) (v : ν) : (Event.stored i k v).writer = i := rfl

section

variable [DecidableEq κ]

/-- The store after an event. -/
def Event.apply (store : κ → ν) : Event ι κ ν → κ → ν
  | .loaded _ _ _ => store
  | .stored _ k v => Function.update store k v

/-- The store a log leaves. -/
def replay (init : κ → ν) (log : List (Event ι κ ν)) : κ → ν := log.foldl Event.apply init

@[simp] theorem replay_nil (init : κ → ν) : replay (ι := ι) init [] = init := rfl

@[simp] theorem replay_snoc (init : κ → ν) (log : List (Event ι κ ν)) (e : Event ι κ ν) :
    replay init (log ++ [e]) = e.apply (replay init log) := by
  simp [replay]

/-- The latest value stored at a key. -/
def latest (k : κ) : List (Event ι κ ν) → Option ν
  | [] => none
  | .loaded _ _ _ :: log => latest k log
  | .stored _ k' v :: log => (latest k log).or (if k' = k then some v else none)

/-- A key has its latest value, or still its first one. -/
theorem replay_eq_latest (init : κ → ν) (log : List (Event ι κ ν)) (k : κ) :
    replay init log k = (latest k log).getD (init k) := by
  induction log generalizing init with
  | nil => rfl
  | cons e log ih =>
      refine (ih (e.apply init)).trans ?_
      cases e with
      | loaded => rfl
      | stored i k' v =>
          simp only [latest, Event.apply]
          cases latest k log with
          | some => rfl
          | none =>
              by_cases same : k' = k
              · subst same
                simp
              · simp [same, Function.update_of_ne (Ne.symm same)]

/-- Each load has the value the log so far leaves. -/
inductive Truthful (init : κ → ν) : List (Event ι κ ν) → Prop
  | nil : Truthful init []
  | loaded {log : List (Event ι κ ν)} (before : Truthful init log) (i : ι) (k : κ) :
      Truthful init (log ++ [.loaded i k (replay init log k)])
  | stored {log : List (Event ι κ ν)} (before : Truthful init log) (i : ι) (k : κ) (v : ν) :
      Truthful init (log ++ [.stored i k v])

theorem snoc_split {α : Type*} {log before after : List α} {last x : α}
    (split : log ++ [last] = before ++ x :: after) :
    (log = before ∧ last = x) ∨ ∃ rest, log = before ++ x :: rest := by
  rcases List.eq_nil_or_concat after with rfl | ⟨rest, e, rfl⟩
  · obtain ⟨same, here⟩ := List.append_inj' split rfl
    exact .inl ⟨same, List.singleton_inj.1 here⟩
  · rw [List.concat_eq_append, ← List.cons_append, ← List.append_assoc] at split
    exact .inr ⟨rest, (List.append_inj' split rfl).1⟩

theorem Truthful.load {init : κ → ν} {log : List (Event ι κ ν)} (truthful : Truthful init log)
    {before after : List (Event ι κ ν)} {i : ι} {k : κ} {v : ν}
    (split : log = before ++ .loaded i k v :: after) : v = replay init before k := by
  induction truthful generalizing after with
  | nil => simp at split
  | loaded _ _ _ ih =>
      rcases snoc_split split with ⟨rfl, same⟩ | ⟨rest, split⟩
      · cases same
        rfl
      · exact ih split
  | stored _ _ _ _ ih =>
      rcases snoc_split split with ⟨-, same⟩ | ⟨rest, split⟩
      · cases same
      · exact ih split

end

/-! ## One writer -/

section

variable [DecidableEq ι]

/-- What one writer does. -/
def own (i : ι) (log : List (Event ι κ ν)) : List (Event ι κ ν) := log.filter (·.writer = i)

theorem own_snoc (i : ι) (log : List (Event ι κ ν)) (e : Event ι κ ν) :
    own i (log ++ [e]) = own i log ++ if e.writer = i then [e] else [] := by
  by_cases mine : e.writer = i <;> simp [own, mine]

variable [DecidableEq κ]

/-- For a key of its own a writer's own log has the latest value. -/
theorem latest_own {i : ι} {k : κ} {log : List (Event ι κ ν)}
    (mine : ∀ j v, .stored j k v ∈ log → j = i) : latest k (own i log) = latest k log := by
  induction log with
  | nil => rfl
  | cons e log ih =>
      have later := ih fun j v member => mine j v (List.mem_cons_of_mem _ member)
      unfold own at later ⊢
      cases e with
      | loaded j k' v =>
          by_cases here : j = i <;> simp [latest, here, later]
      | stored j k' v =>
          by_cases here : j = i
          · simp [latest, here, later]
          · have other : k' ≠ k := fun same => here (mine j v (same ▸ List.mem_cons_self))
            simp [latest, here, later, other]

/-- **A load from a key of its own has the value of the writer's latest store.** -/
theorem Truthful.own_load {init : κ → ν} {log : List (Event ι κ ν)}
    (truthful : Truthful init log) {i : ι} {k : κ} (mine : ∀ j v, .stored j k v ∈ log → j = i)
    {before after : List (Event ι κ ν)} {v : ν}
    (split : own i log = before ++ .loaded i k v :: after) :
    v = (latest k before).getD (init k) := by
  obtain ⟨first, rest, rfl, rfl, second⟩ := List.filter_eq_append_iff.1 split
  obtain ⟨gap, later, rfl, none_, -, rfl⟩ := List.filter_eq_cons_iff.1 second
  rw [truthful.load (List.append_assoc first gap _).symm, replay_eq_latest]
  have none_own : own i gap = [] := List.filter_eq_nil_iff.2 none_
  have prefix_own : own i (first ++ gap) = own i first := by
    rw [own, List.filter_append]
    exact (congrArg _ none_own).trans (List.append_nil _)
  rw [← latest_own, prefix_own]
  · rfl
  · intro j v member
    exact mine j v (by grind)

end

end StoreLog
