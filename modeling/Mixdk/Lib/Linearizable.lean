/-
# Lib.Linearizable -- calls that take effect at one point

Threads call an object and return from it; in between the call is under way, and others are
too.  A history of calls and returns is linearizable when each call can be given a point
between its beginning and its return at which it takes effect all at once, so that the effects
in this order are a run of the specification (`Linearizable`).  The specification says which
answers a call may give in a state, and is a relation.

To show it, say which events a step of the system stands for and keep a relation between the
system and the object with its threads (`Simulates.legal`).
-/
import Mixdk.Lib.Transition

namespace Linear

open Transition

set_option autoImplicit false

universe u v w x y z

variable {ι : Type u} {α : Type v} {β : Type w} {τ : Type x} {σ : Type y} {κ : Type z}

/-- What a thread does: it calls, the call takes effect, it returns. -/
inductive Event (ι : Type u) (α : Type v) (β : Type w)
  | call (i : ι) (a : α)
  | effect (i : ι)
  | ret (i : ι) (b : β)

/-- Where a thread is. -/
inductive Phase (α : Type v) (β : Type w)
  | idle
  | called (a : α)
  | done (b : β)

/-- Calls and returns can be seen. -/
def Event.visible : Event ι α β → Bool
  | .call _ _ | .ret _ _ => true
  | .effect _ => false

/-- The events lead from state `t` of the object, with the threads as they are, to state `u`. -/
inductive Legal [DecidableEq ι] (spec : τ → α → β → τ → Prop) :
    τ → (ι → Phase α β) → List (Event ι α β) → τ → (ι → Phase α β) → Prop
  | nil {t : τ} {threads : ι → Phase α β} : Legal spec t threads [] t threads
  | call {t u : τ} {threads threads' : ι → Phase α β} {i : ι} {a : α} {rest : List (Event ι α β)}
      (idle : threads i = .idle)
      (later : Legal spec t (Function.update threads i (.called a)) rest u threads') :
      Legal spec t threads (.call i a :: rest) u threads'
  | effect {t t' u : τ} {threads threads' : ι → Phase α β} {i : ι} {a : α} {b : β}
      {rest : List (Event ι α β)} (called : threads i = .called a) (takes : spec t a b t')
      (later : Legal spec t' (Function.update threads i (.done b)) rest u threads') :
      Legal spec t threads (.effect i :: rest) u threads'
  | ret {t u : τ} {threads threads' : ι → Phase α β} {i : ι} {b : β} {rest : List (Event ι α β)}
      (done : threads i = .done b)
      (later : Legal spec t (Function.update threads i .idle) rest u threads') :
      Legal spec t threads (.ret i b :: rest) u threads'

/-- The history is what can be seen of calls that take effect one after another, from state `t`. -/
def Linearizable [DecidableEq ι] (spec : τ → α → β → τ → Prop) (t : τ)
    (history : List (Event ι α β)) : Prop :=
  ∃ (events : List (Event ι α β)) (u : τ) (threads : ι → Phase α β),
    Legal spec t (fun _ => .idle) events u threads ∧ events.filter Event.visible = history

namespace Legal

variable [DecidableEq ι] {spec spec' : τ → α → β → τ → Prop} {t u v : τ}
  {threads threads' threads'' : ι → Phase α β} {events more : List (Event ι α β)}

theorem append (first : Legal spec t threads events u threads')
    (second : Legal spec u threads' more v threads'') :
    Legal spec t threads (events ++ more) v threads'' := by
  induction first with
  | nil => exact second
  | call idle _ ih => exact .call idle (ih second)
  | effect called takes _ ih => exact .effect called takes (ih second)
  | ret done _ ih => exact .ret done (ih second)

/-- A call that returns at once. -/
theorem answer {i : ι} {a : α} {b : β} (called : threads i = .called a) (takes : spec t a b u) :
    Legal spec t threads [.effect i, .ret i b] u (Function.update threads i .idle) := by
  refine .effect called takes (.ret (Function.update_self ..) ?_)
  rw [Function.update_idem]
  exact .nil

/-- Calls of a kind, on which one specification says no more than another, are legal for that. -/
theorem mono {P : α → Prop} (weaker : ∀ t a b u, P a → spec t a b u → spec' t a b u)
    (legal : Legal spec t threads events u threads')
    (under : ∀ i a, threads i = .called a → P a) (calls : ∀ i a, .call i a ∈ events → P a) :
    Legal spec' t threads events u threads' := by
  have update {threads : ι → Phase α β} (under : ∀ i a, threads i = .called a → P a) (i : ι)
      {phase : Phase α β} (new : ∀ a, phase = .called a → P a) :
      ∀ j a, Function.update threads i phase j = .called a → P a := by
    intro j a at_
    by_cases same : j = i
    · rw [same, Function.update_self] at at_
      exact new a at_
    · rw [Function.update_of_ne same] at at_
      exact under j a at_
  induction legal with
  | nil => exact .nil
  | @call t u threads threads' i a rest idle later ih =>
      refine .call idle (ih (update under i ?_) fun j b member => calls j b (.tail _ member))
      rintro b same
      cases same
      exact calls i a (.head _)
  | @effect t t' u threads threads' i a b rest called takes later ih =>
      exact .effect called (weaker _ _ _ _ (under i a called) takes)
        (ih (update under i nofun) fun j b member => calls j b (.tail _ member))
  | @ret t u threads threads' i b rest done later ih =>
      exact .ret done (ih (update under i nofun) fun j b member => calls j b (.tail _ member))

/-- The first events of a legal sequence. -/
theorem first (legal : Legal spec t threads (events ++ more) u threads') :
    ∃ v threads'', Legal spec t threads events v threads'' := by
  induction events generalizing t threads with
  | nil => exact ⟨t, threads, .nil⟩
  | cons event events ih =>
      cases legal with
      | call idle later =>
          obtain ⟨v, threads'', legal⟩ := ih later
          exact ⟨v, threads'', .call idle legal⟩
      | effect called takes later =>
          obtain ⟨v, threads'', legal⟩ := ih later
          exact ⟨v, threads'', .effect called takes legal⟩
      | ret done later =>
          obtain ⟨v, threads'', legal⟩ := ih later
          exact ⟨v, threads'', .ret done legal⟩

theorem linearizable {t : τ} (legal : Legal spec t (fun _ => .idle) events u threads') :
    Linearizable spec t (events.filter Event.visible) :=
  ⟨events, u, threads', legal, rfl⟩

end Legal

/-! ## Systems -/

/-- The events of a run, when a step from `s` on label `a` stands for `emit s a`. -/
def trace (step : σ → κ → Option σ) (emit : σ → κ → List (Event ι α β)) :
    σ → List κ → List (Event ι α β)
  | _, [] => []
  | s, a :: as => emit s a ++ (step s a).elim [] fun t => trace step emit t as

theorem trace_append {step : σ → κ → Option σ} {emit : σ → κ → List (Event ι α β)} {s t : σ}
    {as : List κ} (ran : exec step s as = some t) (bs : List κ) :
    trace step emit s (as ++ bs) = trace step emit s as ++ trace step emit t bs := by
  induction as generalizing s with
  | nil =>
      cases ran
      rfl
  | cons a as ih =>
      obtain ⟨m, stepped, rest⟩ := exec_cons_eq_some.1 ran
      rw [List.cons_append, trace, trace, stepped, Option.elim_some, Option.elim_some, ih rest,
        List.append_assoc]

/-- Every step of the system is legal for the object and its threads. -/
def Simulates [DecidableEq ι] (step : σ → κ → Option σ) (emit : σ → κ → List (Event ι α β))
    (spec : τ → α → β → τ → Prop) (R : σ → τ → (ι → Phase α β) → Prop) : Prop :=
  ∀ s a s' t threads, R s t threads → step s a = some s' →
    ∃ u threads', Legal spec t threads (emit s a) u threads' ∧ R s' u threads'

/-- **And so is every run.** -/
theorem Simulates.legal [DecidableEq ι] {step : σ → κ → Option σ}
    {emit : σ → κ → List (Event ι α β)} {spec : τ → α → β → τ → Prop}
    {R : σ → τ → (ι → Phase α β) → Prop} (simulates : Simulates step emit spec R) {s s' : σ} {t : τ}
    {threads : ι → Phase α β} (start : R s t threads) {as : List κ}
    (ran : exec step s as = some s') :
    ∃ u threads', Legal spec t threads (trace step emit s as) u threads' ∧ R s' u threads' := by
  induction as generalizing s t threads with
  | nil =>
      cases ran
      exact ⟨t, threads, .nil, start⟩
  | cons a as ih =>
      obtain ⟨m, stepped, rest⟩ := exec_cons_eq_some.1 ran
      obtain ⟨u, between, first, related⟩ := simulates s a m t threads start stepped
      obtain ⟨v, threads', second, related'⟩ := ih related rest
      refine ⟨v, threads', ?_, related'⟩
      rw [trace, stepped]
      exact first.append second

end Linear
