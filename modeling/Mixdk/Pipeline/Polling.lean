/-
# Pipeline.Polling -- which submit queues the scheduler polls

The scheduler takes one task from `submit_queue[idx]` and goes on to
`(idx + 1) & (max_current - 1)`.  For a power of two this is the next queue in turn; for
other numbers of queues the mask has a hole at its lowest zero, and the index comes back
to 0 from there.  So exactly the queues below the largest power of two that divides the
number are polled (`pollPeriod`), in turn, and the others never (`polls_all_iff`).
-/
import Mixdk.Core.Task
import Mathlib.Data.Int.CardIntervalMod
import Mathlib.Data.Nat.Prime.Basic

namespace Mixdk

set_option autoImplicit false

/-- `mixdk_init` rejects a number of submit queues with -1. -/
def mixdkInit (submitQueueNum : Nat) : Int :=
  if submitQueueNum ≤ 0 ∨ submitQueueNum > 16 then -1 else 0

/-- `idx = (idx+1)&mask`.  Both are `uint8_t`, and neither exceeds 15. -/
def pollNext (submitQueueNum idx : Nat) : Nat := (idx + 1) &&& (submitQueueNum - 1)

/-- The scheduler's index, the submit queues, and the tasks dequeued so far with their queues. -/
structure Polling where
  idx : Nat
  submitQueue : Nat → List IoTask
  dequeued : List (Nat × IoTask)

namespace Polling

def start (contents : Nat → List IoTask) : Polling :=
  { idx := 0, submitQueue := contents, dequeued := [] }

/-- One iteration of the loop of `scheduler`. -/
def iteration (submitQueueNum : Nat) (s : Polling) : Polling :=
  let next := pollNext submitQueueNum s.idx
  match s.submitQueue s.idx with
  | [] => { s with idx := next }
  | task :: rest =>
      { idx := next, submitQueue := Function.update s.submitQueue s.idx rest,
        dequeued := s.dequeued ++ [(s.idx, task)] }

def iterations (submitQueueNum : Nat) : Nat → Polling → Polling
  | 0, s => s
  | k + 1, s => iteration submitQueueNum (iterations submitQueueNum k s)

/-- The tasks dequeued from queue `i`, in their order. -/
def dequeuedFrom (s : Polling) (i : Nat) : List IoTask :=
  (s.dequeued.filter fun x => x.1 = i).map Prod.snd

end Polling

/-- The largest power of two that divides the number of queues, a `uint8_t`. -/
def pollPeriod (submitQueueNum : Nat) : Nat := submitQueueNum.gcd (2 ^ 8)

/-! ## The recurrence of the index -/

/-- Below a power of two `2 ^ t` the mask `2 ^ t * m - 1` lets the index count, and takes it back
to 0 from the end when `m` is odd. -/
theorem and_mask {t m i : Nat} (odd : m % 2 = 1) (below : i < 2 ^ t) :
    (i + 1) &&& (2 ^ t * m - 1) = (i + 1) % 2 ^ t := by
  obtain ⟨k, rfl⟩ : ∃ k, m = k + 1 := ⟨m - 1, by omega⟩
  have pos : 0 < 2 ^ t := Nat.two_pow_pos t
  have mask : 2 ^ t * (k + 1) - 1 = 2 ^ t * k + (2 ^ t - 1) := by
    rw [Nat.mul_succ]
    omega
  rw [mask]
  by_cases last : i + 1 = 2 ^ t
  · -- the bit the index reaches is clear in the mask
    have quotient : (2 ^ t * k + (2 ^ t - 1)) / 2 ^ t = k := by
      rw [Nat.mul_add_div pos, Nat.div_eq_of_lt (by omega), Nat.add_zero]
    have hole : (2 ^ t * k + (2 ^ t - 1)).testBit t = false := by
      rw [Nat.testBit_eq_decide_div_mod_eq, quotient]
      exact decide_eq_false (by omega)
    rw [last, Nat.mod_self]
    apply Nat.eq_of_testBit_eq
    intro j
    rw [Nat.testBit_and, Nat.testBit_two_pow, Nat.zero_testBit]
    by_cases here : t = j
    · rw [← here, hole, Bool.and_false]
    · rw [decide_eq_false here, Bool.false_and]
  · have small : i + 1 < 2 ^ t := by omega
    have low : (2 ^ t * k + (2 ^ t - 1)) % 2 ^ t = 2 ^ t - 1 := by
      rw [Nat.mul_add_mod, Nat.mod_eq_of_lt (by omega)]
    have inside : (i + 1) &&& (2 ^ t * k + (2 ^ t - 1)) < 2 ^ t :=
      Nat.lt_of_le_of_lt Nat.and_le_left small
    rw [← Nat.mod_eq_of_lt inside, Nat.and_mod_two_pow, low, Nat.and_two_pow_sub_one_eq_mod,
      Nat.mod_mod, Nat.mod_eq_of_lt small]

/-- The number of queues is an odd multiple of the period. -/
theorem pollPeriod_spec {n : Nat} (pos : 0 < n) (word : n < 2 ^ 8) :
    ∃ t m, pollPeriod n = 2 ^ t ∧ n = 2 ^ t * m ∧ m % 2 = 1 := by
  obtain ⟨t, -, period⟩ := (Nat.dvd_prime_pow Nat.prime_two).1 (Nat.gcd_dvd_right n (2 ^ 8))
  obtain ⟨m, whole⟩ := Nat.gcd_dvd_left n (2 ^ 8)
  rw [period] at whole
  refine ⟨t, m, period, whole, ?_⟩
  by_contra even
  -- twice the period would divide `n`, and 256
  obtain ⟨k, rfl⟩ : ∃ k, m = 2 * k := ⟨m / 2, by omega⟩
  have more : 2 ^ (t + 1) ∣ n := ⟨k, by rw [whole, Nat.pow_succ, Nat.mul_assoc]⟩
  have small : 2 ^ (t + 1) < 2 ^ 8 := Nat.lt_of_le_of_lt (Nat.le_of_dvd pos more) word
  have upto : t + 1 ≤ 8 := Nat.le_of_lt ((Nat.pow_lt_pow_iff_right (by decide)).1 small)
  have both : 2 ^ (t + 1) ∣ n.gcd (2 ^ 8) := Nat.dvd_gcd more (Nat.pow_dvd_pow 2 upto)
  rw [period] at both
  have le := Nat.le_of_dvd (Nat.two_pow_pos t) both
  rw [Nat.pow_succ] at le
  have := Nat.two_pow_pos t
  omega

theorem pollPeriod_pos {n : Nat} (pos : 0 < n) : 0 < pollPeriod n :=
  Nat.gcd_pos_of_pos_left _ pos

/-- **The index counts up to the period, and starts again.** -/
theorem pollNext_eq {n idx : Nat} (pos : 0 < n) (word : n < 2 ^ 8) (inside : idx < pollPeriod n) :
    pollNext n idx = (idx + 1) % pollPeriod n := by
  obtain ⟨t, m, period, whole, odd⟩ := pollPeriod_spec pos word
  rw [period] at inside ⊢
  rw [pollNext, whole]
  exact and_mask odd inside

/-! ## Rounds -/

namespace Polling

variable {n k : Nat} {s : Polling} (contents : Nat → List IoTask)

/-- Nothing is lost, doubled or reordered by an iteration. -/
theorem iteration_queue (n : Nat) (s : Polling) (i : Nat) :
    (s.iteration n).dequeuedFrom i ++ (s.iteration n).submitQueue i =
      s.dequeuedFrom i ++ s.submitQueue i := by
  unfold iteration
  cases queue : s.submitQueue s.idx with
  | nil => rfl
  | cons task rest =>
      simp only [dequeuedFrom, List.filter_append, List.map_append]
      by_cases here : s.idx = i
      · subst here
        simp [queue]
      · have other : i ≠ s.idx := fun same => here same.symm
        simp [here, Function.update_of_ne other]

theorem iterations_queue (n k : Nat) (i : Nat) :
    ((start contents).iterations n k).dequeuedFrom i ++
      ((start contents).iterations n k).submitQueue i = contents i := by
  induction k with
  | zero => rfl
  | succ k ih => rw [iterations, iteration_queue, ih]

/-- The index stays below the period. -/
theorem iterations_idx (pos : 0 < n) (word : n < 2 ^ 8) (k : Nat) :
    ((start contents).iterations n k).idx = k % pollPeriod n := by
  have period := pollPeriod_pos pos
  induction k with
  | zero => rw [Nat.zero_mod]; rfl
  | succ k ih =>
      have next : ((start contents).iterations n (k + 1)).idx =
          pollNext n ((start contents).iterations n k).idx := by
        rw [iterations, iteration]
        split <;> rfl
      rw [next, ih, pollNext_eq pos word (Nat.mod_lt _ period), Nat.mod_add_mod]

/-- How often queue `i` was polled in `k` iterations. -/
def polls (n k i : Nat) : Nat := Nat.count (fun j => j % pollPeriod n = i) k

/-- Each poll takes one task. -/
theorem iterations_submitQueue (pos : 0 < n) (word : n < 2 ^ 8) (k i : Nat) :
    ((start contents).iterations n k).submitQueue i = (contents i).drop (polls n k i) := by
  induction k with
  | zero => rfl
  | succ k ih =>
      have at_ := iterations_idx contents pos word k
      have count : polls n (k + 1) i = polls n k i + if k % pollPeriod n = i then 1 else 0 :=
        Nat.count_succ ..
      rw [iterations, count, ← List.drop_drop, ← ih]
      unfold iteration
      rw [at_]
      by_cases here : k % pollPeriod n = i
      · rw [here, if_pos rfl]
        cases queue : ((start contents).iterations n k).submitQueue i with
        | nil => simp [queue]
        | cons task rest => simp
      · rw [if_neg here, List.drop_zero]
        have other : i ≠ k % pollPeriod n := fun same => here same.symm
        split
        · rfl
        · simp [Function.update_of_ne other]

/-- In `r` rounds each queue below the period is polled `r` times. -/
theorem polls_rounds {i : Nat} (inside : i < pollPeriod n) (r : Nat) :
    polls n (r * pollPeriod n) i = r := by
  have pos : 0 < pollPeriod n := by omega
  have count := Nat.count_modEq_card (r * pollPeriod n) pos i
  rw [Nat.mul_div_cancel r pos, Nat.mul_mod_left, if_neg (Nat.not_lt_zero _)] at count
  simp only [Nat.ModEq, Nat.mod_eq_of_lt inside] at count
  exact count

/-- The other queues are never polled. -/
theorem polls_beyond {i : Nat} (pos : 0 < n) (beyond : pollPeriod n ≤ i) (k : Nat) :
    polls n k i = 0 := by
  induction k with
  | zero => rfl
  | succ k ih =>
      have never : k % pollPeriod n ≠ i := by
        have := Nat.mod_lt k (pollPeriod_pos pos)
        omega
      rw [polls, Nat.count_succ, if_neg never]
      exact ih

theorem dequeuedFrom_eq_iff (pos : 0 < n) (word : n < 2 ^ 8) (k i : Nat) :
    ((start contents).iterations n k).dequeuedFrom i = contents i ↔
      (contents i).length ≤ polls n k i := by
  have whole := iterations_queue contents n k i
  rw [iterations_submitQueue contents pos word] at whole
  rw [← List.drop_eq_nil_iff]
  constructor
  · intro all
    rw [all] at whole
    exact List.append_right_eq_self.1 whole
  · intro none_
    rwa [none_, List.append_nil] at whole

/-- **Some number of iterations dequeues everything exactly if all tasks are in queues below the
period.** -/
theorem polls_all_iff (accepted : mixdkInit n = 0) :
    (∃ k, ∀ i < n, ((start contents).iterations n k).dequeuedFrom i = contents i) ↔
      ∀ i < n, pollPeriod n ≤ i → contents i = [] := by
  have bounds : 0 < n ∧ n ≤ 16 := by
    unfold mixdkInit at accepted
    split at accepted
    · cases accepted
    · omega
  obtain ⟨pos, upto⟩ := bounds
  have word : n < 2 ^ 8 := by omega
  simp only [dequeuedFrom_eq_iff contents pos word]
  constructor
  · rintro ⟨k, all⟩ i inside beyond
    have none_ := all i inside
    rw [polls_beyond pos beyond] at none_
    exact List.eq_nil_of_length_eq_zero (Nat.le_zero.1 none_)
  · intro polled
    let rounds := (Finset.range n).sup fun i => (contents i).length
    refine ⟨rounds * pollPeriod n, fun i inside => ?_⟩
    by_cases below : i < pollPeriod n
    · rw [polls_rounds below]
      exact Finset.le_sup (f := fun i => (contents i).length) (Finset.mem_range.2 inside)
    · rw [polled i inside (Nat.le_of_not_lt below)]
      exact Nat.zero_le _

end Polling

/-! ## Three queues and four -/

/-- One task in queue `i`. -/
def oneTask (i : Nat) : Nat → List IoTask :=
  Function.update (fun _ => [])
    i [{ buf := 0, len := 1, offset := 0, ret := 0, opcode := MIX_WRITE, type := 0, queueIdx := i }]

/-- Of three queues, the second is never polled. -/
theorem three_queues_starve : mixdkInit 3 = 0 ∧
    ¬ ∃ k, ∀ i < 3, ((Polling.start (oneTask 1)).iterations 3 k).dequeuedFrom i = oneTask 1 i := by
  refine ⟨rfl, fun ⟨k, all⟩ => ?_⟩
  have queue := Polling.iterations_submitQueue (oneTask 1) (show 0 < 3 by decide)
    (by decide) k 1
  have whole := Polling.iterations_queue (oneTask 1) 3 k 1
  rw [Polling.polls_beyond (by decide) (by decide), List.drop_zero] at queue
  rw [queue, all 1 (by decide)] at whole
  cases whole

theorem four_queues_polled :
    ∃ k, ∀ i < 4, ((Polling.start (oneTask 3)).iterations 4 k).dequeuedFrom i = oneTask 3 i := by
  refine (Polling.polls_all_iff (oneTask 3) rfl).2 fun i inside beyond => ?_
  have period : pollPeriod 4 = 4 := by decide
  omega

end Mixdk
