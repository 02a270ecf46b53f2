/-
# Lib.Transition -- runs of a labelled step function

A system is a partial step function `step : σ → α → Option σ`: the label says
which thread moves, or which request comes next, and `none` says that this label
is not enabled.  `exec` takes a list of labels; quantifying over the list is
quantifying over every interleaving.

`Run step guard s as t` is the same run with a side condition on each step,
stated on the state the step starts from.  An invariant of the guarded steps is
an invariant of the guarded runs (`Run.invariant`); that rule is the only
induction over runs the developments below need.
-/
import Mathlib.Logic.Function.Basic
import Mathlib.Tactic.Common

namespace Transition

set_option autoImplicit false

universe u v w

variable {σ : Type u} {α : Type v}

/-- Take the labels one after another; `none` as soon as one is not enabled. -/
def exec (step : σ → α → Option σ) : σ → List α → Option σ
  | s, [] => some s
  | s, a :: as => (step s a).bind fun t => exec step t as

/-- A run all of whose steps meet `guard`. -/
inductive Run (step : σ → α → Option σ) (guard : σ → α → Prop) : σ → List α → σ → Prop
  | nil (s : σ) : Run step guard s [] s
  | cons {s t u : σ} {a : α} {as : List α} (met : guard s a) (stepped : step s a = some t)
      (rest : Run step guard t as u) : Run step guard s (a :: as) u

variable {step : σ → α → Option σ} {guard : σ → α → Prop}

@[simp] theorem exec_nil (s : σ) : exec step s [] = some s := rfl

theorem exec_cons_eq_some {s u : σ} {a : α} {as : List α} :
    exec step s (a :: as) = some u ↔ ∃ t, step s a = some t ∧ exec step t as = some u :=
  Option.bind_eq_some_iff

theorem exec_append (s : σ) (as bs : List α) :
    exec step s (as ++ bs) = (exec step s as).bind fun t => exec step t bs := by
  induction as generalizing s with
  | nil => rfl
  | cons a as ih =>
      simp only [List.cons_append, exec, Option.bind_assoc]
      cases step s a with
      | none => rfl
      | some t => exact ih t

/-- Two runs compose. -/
theorem exec_trans {s t u : σ} {as bs : List α} (first : exec step s as = some t)
    (second : exec step t bs = some u) : exec step s (as ++ bs) = some u := by
  rw [exec_append, first]
  exact second

/-- A run of runs. -/
theorem exec_flatMap {β : Type w} (f : β → List α) (s : σ) (bs : List β) :
    exec step s (bs.flatMap f) = exec (fun s b => exec step s (f b)) s bs := by
  induction bs generalizing s with
  | nil => rfl
  | cons b bs ih =>
      rw [List.flatMap_cons, exec_append, exec]
      exact congrArg _ (funext ih)

namespace Run

/-- What every guarded step preserves, every guarded run preserves. -/
theorem invariant {I : σ → Prop} {s t : σ} {as : List α}
    (preserved : ∀ s a t, I s → guard s a → step s a = some t → I t)
    (run : Run step guard s as t) (start : I s) : I t := by
  induction run with
  | nil => exact start
  | cons met stepped _ ih => exact ih (preserved _ _ _ start met stepped)

theorem exec {s t : σ} {as : List α} (run : Run step guard s as t) :
    Transition.exec step s as = some t := by
  induction run with
  | nil => rfl
  | cons _ stepped _ ih => exact exec_cons_eq_some.2 ⟨_, stepped, ih⟩

/-- Where an invariant gives the guard, every run is a guarded one. -/
theorem of_exec {I : σ → Prop} (preserved : ∀ s a t, I s → step s a = some t → I t)
    (meets : ∀ s a, I s → guard s a) {s t : σ} {as : List α}
    (ran : Transition.exec step s as = some t) (start : I s) : Run step guard s as t := by
  induction as generalizing s with
  | nil => cases ran; exact .nil _
  | cons a as ih =>
      obtain ⟨m, stepped, rest⟩ := exec_cons_eq_some.1 ran
      exact .cons (meets s a start) stepped (ih rest (preserved s a m start stepped))

/-- A map that takes guarded steps to guarded steps takes runs to runs. -/
theorem map {I : σ → Prop} {f : σ → σ}
    (preserved : ∀ s a t, I s → step s a = some t → I t)
    (maps : ∀ s a t, I s → guard s a → step s a = some t →
      guard (f s) a ∧ step (f s) a = some (f t))
    {s t : σ} {as : List α} (run : Run step guard s as t) (start : I s) :
    Run step guard (f s) as (f t) := by
  induction run with
  | nil => exact .nil _
  | cons met stepped _ ih =>
      obtain ⟨met', stepped'⟩ := maps _ _ _ start met stepped
      exact .cons met' stepped' (ih (preserved _ _ _ start stepped))

theorem weaken {guard' : σ → α → Prop} (weaker : ∀ s a, guard s a → guard' s a) {s t : σ}
    {as : List α} (run : Run step guard s as t) : Run step guard' s as t := by
  induction run with
  | nil => exact .nil _
  | cons met stepped _ ih => exact .cons (weaker _ _ met) stepped ih

/-- A condition on the labels joins the guard. -/
theorem restrict {P : α → Prop} {s t : σ} {as : List α} (run : Run step guard s as t)
    (all : ∀ a ∈ as, P a) : Run step (fun s a => guard s a ∧ P a) s as t := by
  induction run with
  | nil => exact .nil _
  | cons met stepped _ ih =>
      obtain ⟨first, rest⟩ := List.forall_mem_cons.1 all
      exact .cons ⟨met, first⟩ stepped (ih rest)

/-- When each step leaves `f` as it was or makes it equal to `g`, then after a run `f` is as it
was, or is what `g` was in a state on the way. -/
theorem attained {β : Type w} {I : σ → Prop} {f g : σ → β}
    (preserved : ∀ s a t, I s → guard s a → step s a = some t → I t)
    (follows : ∀ s a t, I s → guard s a → step s a = some t → f t = f s ∨ f t = g t)
    {s t : σ} {as : List α} (run : Run step guard s as t) (start : I s) :
    f t = f s ∨
      ∃ front back x, as = front ++ back ∧ Transition.exec step s front = some x ∧ f t = g x := by
  induction run with
  | nil => exact .inl rfl
  | @cons s m t a as met stepped _ ih =>
      have one : Transition.exec step s [a] = some m := exec_cons_eq_some.2 ⟨m, stepped, rfl⟩
      rcases ih (preserved _ _ _ start met stepped) with same | ⟨front, back, x, rfl, ran, is⟩
      · rw [same]
        exact (follows _ _ _ start met stepped).imp_right fun now => ⟨[a], as, m, rfl, one, now⟩
      · exact .inr ⟨a :: front, back, x, rfl, exec_trans one ran, is⟩

theorem append {s t u : σ} {as bs : List α} (first : Run step guard s as t)
    (second : Run step guard t bs u) : Run step guard s (as ++ bs) u := by
  induction first with
  | nil => exact second
  | cons met stepped _ ih => exact .cons met stepped (ih second)

/-- A run whose steps are checked as they are taken is a guarded one. -/
theorem of_checked {check : σ → α → Bool} (sound : ∀ s a, check s a = true → guard s a) {s t : σ}
    {as : List α}
    (ran : Transition.exec (fun s a => if check s a then step s a else none) s as = some t) :
    Run step guard s as t := by
  induction as generalizing s with
  | nil => cases ran; exact .nil _
  | cons a as ih =>
      obtain ⟨m, stepped, rest⟩ := exec_cons_eq_some.1 ran
      by_cases checked : check s a = true
      · rw [if_pos checked] at stepped
        exact .cons (sound s a checked) stepped (ih rest)
      · rw [if_neg checked] at stepped
        cases stepped

theorem checked {check : σ → α → Bool} (complete : ∀ s a, guard s a → check s a = true) {s t : σ}
    {as : List α} (run : Run step guard s as t) :
    Transition.exec (fun s a => if check s a then step s a else none) s as = some t := by
  induction run with
  | nil => rfl
  | cons met stepped _ ih =>
      refine exec_cons_eq_some.2 ⟨_, ?_, ih⟩
      rw [if_pos (complete _ _ met)]
      exact stepped

end Run

/-- An invariant of the plain steps holds after every run. -/
theorem exec_invariant {I : σ → Prop} (preserved : ∀ s a t, I s → step s a = some t → I t)
    {s t : σ} {as : List α} (ran : exec step s as = some t) (start : I s) : I t :=
  have run : Run step (fun _ _ => True) s as t :=
    Run.of_exec preserved (fun _ _ _ => trivial) ran start
  run.invariant (fun s a t inv _ => preserved s a t inv) start

/-- Two systems whose steps agree on a view of the state have runs that agree on it. -/
theorem exec_view {τ : Type w} {view : σ → τ} {step' : σ → α → Option σ}
    (same : ∀ s t a, view s = view t → (step s a).map view = (step' t a).map view) {s t : σ}
    (start : view s = view t) (as : List α) :
    (exec step s as).map view = (exec step' t as).map view := by
  induction as generalizing s t with
  | nil => exact congrArg some start
  | cons a as ih =>
      have first := same s t a start
      rw [exec, exec]
      cases taken : step s a with
      | none =>
          rw [taken, Option.map_none, eq_comm, Option.map_eq_none_iff] at first
          rw [first]
          rfl
      | some u =>
          rw [taken, Option.map_some, eq_comm, Option.map_eq_some_iff] at first
          obtain ⟨v, taken', agree⟩ := first
          rw [taken']
          exact ih agree.symm

/-- Two systems that keep a relation, and are enabled together, do so in their runs. -/
theorem exec_rel {τ : Type w} {R : σ → τ → Prop} {step' : τ → α → Option τ}
    (follows : ∀ s t a, R s t → Option.Rel R (step s a) (step' t a)) {s : σ} {t : τ}
    (start : R s t) (as : List α) : Option.Rel R (exec step s as) (exec step' t as) := by
  induction as generalizing s t with
  | nil => exact .some start
  | cons a as ih =>
      have first := follows s t a start
      rw [exec, exec]
      cases taken : step s a with
      | none =>
          rw [taken] at first
          cases taken' : step' t a with
          | none => exact .none
          | some v =>
              rw [taken'] at first
              cases first
      | some u =>
          rw [taken] at first
          cases taken' : step' t a with
          | none =>
              rw [taken'] at first
              cases first
          | some v =>
              rw [taken'] at first
              cases first with
              | some related => exact ih related

/-- Where a step of one system is some steps of another, so is a run. -/
theorem exec_simulated {τ : Type w} {β : Type w} {R : σ → τ → Prop} {step' : τ → β → Option τ}
    (follows : ∀ s t a s', R s t → step s a = some s' → ∃ bs t', exec step' t bs = some t' ∧ R s' t')
    {s s' : σ} {t : τ} {as : List α} (start : R s t) (ran : exec step s as = some s') :
    ∃ bs t', exec step' t bs = some t' ∧ R s' t' := by
  induction as generalizing s t with
  | nil =>
      cases ran
      exact ⟨[], t, rfl, start⟩
  | cons a as ih =>
      obtain ⟨m, stepped, rest⟩ := exec_cons_eq_some.1 ran
      obtain ⟨front, u, first, related⟩ := follows s t a m start stepped
      obtain ⟨back, v, last, there⟩ := ih related rest
      exact ⟨front ++ back, v, exec_trans first last, there⟩

/-- A part of the state that each step leaves alone, or moves by a step of its own, runs along. -/
theorem exec_image {τ : Type w} {β : Type w} {f : σ → τ} {step' : τ → β → Option τ}
    (maps : ∀ s a t, step s a = some t → f t = f s ∨ ∃ b, step' (f s) b = some (f t)) {s t : σ}
    {as : List α} (ran : exec step s as = some t) : ∃ bs, exec step' (f s) bs = some (f t) := by
  have simulated : ∃ bs v, exec step' (f s) bs = some v ∧ v = f t := by
    refine exec_simulated (R := fun s v => v = f s) (fun s v a s' same stepped => ?_) rfl ran
    subst same
    rcases maps s a s' stepped with still | ⟨b, moved⟩
    · exact ⟨[], f s, rfl, still.symm⟩
    · exact ⟨[b], f s', exec_cons_eq_some.2 ⟨_, moved, rfl⟩, rfl⟩
  obtain ⟨bs, v, ran', rfl⟩ := simulated
  exact ⟨bs, ran'⟩

/-- A label that stays enabled and makes progress until `Q` holds leads to `Q` on its own. -/
theorem exec_until {I Q : σ → Prop} (measure : σ → Nat) (a : α)
    (progress : ∀ s, I s → ¬ Q s → ∃ t, step s a = some t ∧ I t ∧ measure t < measure s)
    {s : σ} (start : I s) :
    ∃ n t, exec step s (List.replicate n a) = some t ∧ I t ∧ Q t := by
  induction size : measure s using Nat.strongRecOn generalizing s with
  | ind m ih =>
      by_cases there : Q s
      · exact ⟨0, s, rfl, start, there⟩
      · obtain ⟨t, stepped, inv, less⟩ := progress s start there
        obtain ⟨n, u, ran, inv', reached⟩ := ih (measure t) (size ▸ less) inv rfl
        exact ⟨n + 1, u, exec_cons_eq_some.2 ⟨t, stepped, ran⟩, inv', reached⟩

/-! ## Runs that answer -/

section Answers

variable {τ β : Type w}

/-- Make the calls one after another, and collect what they answer. -/
def answers (call : σ → α → σ × β) : σ → List α → σ × List β
  | s, [] => (s, [])
  | s, a :: as =>
      let (t, b) := call s a
      let (u, bs) := answers call t as
      (u, b :: bs)

/-- A relation that every call keeps, with equal answers, every run keeps, with equal answers. -/
theorem answers_refines {R : σ → τ → Prop} {call : σ → α → σ × β} {spec : τ → α → τ × β}
    (refines : ∀ s t a, R s t → R (call s a).1 (spec t a).1 ∧ (call s a).2 = (spec t a).2)
    {s : σ} {t : τ} (start : R s t) (as : List α) :
    R (answers call s as).1 (answers spec t as).1 ∧
      (answers call s as).2 = (answers spec t as).2 := by
  induction as generalizing s t with
  | nil => exact ⟨start, rfl⟩
  | cons a as ih =>
      obtain ⟨related, same⟩ := refines s t a start
      obtain ⟨related', same'⟩ := ih related
      exact ⟨related', congrArg₂ List.cons same same'⟩

end Answers

/-! ## Calls that may not return -/

section Partial

variable {τ β : Type w}

/-- Make the calls one after another, and collect what they answer; `none` as soon as one does
not return. -/
def answers? (call : σ → α → Option (β × σ)) : σ → List α → Option (List β × σ)
  | s, [] => some ([], s)
  | s, a :: as =>
      (call s a).bind fun (b, t) => (answers? call t as).map fun (bs, u) => (b :: bs, u)

/-- The calls, with these answers, are a run of the specification. -/
inductive Answered (spec : τ → α → β → τ → Prop) : τ → List α → List β → τ → Prop
  | nil (t : τ) : Answered spec t [] [] t
  | cons {t u v : τ} {a : α} {b : β} {as : List α} {bs : List β} (first : spec t a b u)
      (rest : Answered spec u as bs v) : Answered spec t (a :: as) (b :: bs) v

variable {call : σ → α → Option (β × σ)}

theorem answers?_cons_eq_some {s u : σ} {a : α} {as : List α} {out : List β} :
    answers? call s (a :: as) = some (out, u) ↔
      ∃ b t bs, call s a = some (b, t) ∧ answers? call t as = some (bs, u) ∧ out = b :: bs := by
  simp only [answers?, Option.bind_eq_some_iff, Option.map_eq_some_iff, Prod.exists,
    Prod.mk.injEq]
  constructor
  · rintro ⟨b, t, called, bs, v, rest, rfl, rfl⟩
    exact ⟨b, t, bs, called, rest, rfl⟩
  · rintro ⟨b, t, bs, called, rest, rfl⟩
    exact ⟨b, t, called, bs, u, rest, rfl, rfl⟩

/-- When every call is one of the specification, on what the state stands for, every run is. -/
theorem answers?_refines {I : σ → Prop} {P : α → Prop} {abs : σ → τ}
    {spec : τ → α → β → τ → Prop}
    (refines : ∀ s a b t, I s → P a → call s a = some (b, t) → spec (abs s) a b (abs t) ∧ I t)
    {s t : σ} {as : List α} {bs : List β} (start : I s) (all : ∀ a ∈ as, P a)
    (ran : answers? call s as = some (bs, t)) : Answered spec (abs s) as bs (abs t) ∧ I t := by
  induction as generalizing s bs with
  | nil =>
      cases ran
      exact ⟨.nil _, start⟩
  | cons a as ih =>
      obtain ⟨b, m, out, called, rest, rfl⟩ := answers?_cons_eq_some.1 ran
      obtain ⟨here, later⟩ := List.forall_mem_cons.1 all
      obtain ⟨first, inv⟩ := refines s a b m start here called
      obtain ⟨run, inv'⟩ := ih inv later rest
      exact ⟨.cons first run, inv'⟩

/-- A run that does not return is stuck in a call, after calls that did. -/
theorem answers?_eq_none {s : σ} {as : List α} (stuck : answers? call s as = none) :
    ∃ front a back bs t, as = front ++ a :: back ∧ answers? call s front = some (bs, t) ∧
      call t a = none := by
  induction as generalizing s with
  | nil => cases stuck
  | cons a as ih =>
      cases called : call s a with
      | none => exact ⟨[], a, as, [], s, rfl, rfl, called⟩
      | some next =>
          obtain ⟨b, m⟩ := next
          have rest : answers? call m as = none := by
            simpa only [answers?, called, Option.bind_some, Option.map_eq_none_iff] using stuck
          obtain ⟨front, c, back, bs, t, rfl, ran, stays⟩ := ih rest
          exact ⟨a :: front, c, back, b :: bs, t, rfl,
            answers?_cons_eq_some.2 ⟨b, m, bs, called, ran, rfl⟩, stays⟩

end Partial

end Transition
