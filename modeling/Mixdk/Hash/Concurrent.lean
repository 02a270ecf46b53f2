/-
# Hash.Concurrent -- lookups among the other calls

`mix_hash_get` copies the bucket's pointer, and takes the lock and walks afterwards.  Between
the two, other threads put, delete and pop.

Puts and deletes of a bucket's head do not touch the walk ahead.  A delete that unlinks a node
and a pop give a node back, and the lookup may still be on its way to it: after a pop always,
after a delete when it does not come through the node before.  Where neither happens (`Spared`),
a lookup meets no node that was given back, and finds what was there at some moment of the call
(`mixHashGet_concurrent`); where one does, the lookup would meet such a node
(`exists_freed_ahead`).
-/
import Mixdk.Hash.Chains
import Mixdk.Lib.Transition
import Mathlib.Data.Fintype.Basic

namespace Mixdk

set_option autoImplicit false

open LinkedList Transition

namespace NodeTable

/-- The nodes from the pointer `head` to the first one with the key. -/
def ahead (t : NodeTable) (key : Nat) (head : Option Nat) : List Nat :=
  walked (t.hit key) (t.path head)

/-- The value a walk from the pointer `head` finds. -/
def found (t : NodeTable) (key : Nat) (head : Option Nat) : Int := t.valueIn key (t.path head)

variable {t t' : NodeTable} {key p a : Nat} {head : Option Nat} {l l' : List Nat}

theorem hit_congr {b : Nat} (entry : t'.entry b = t.entry b) : t'.hit key b = t.hit key b :=
  congrArg (fun kv => kv.1 == key) entry

theorem valueIn_congr (entries : ∀ b ∈ l, t'.entry b = t.entry b) :
    t'.valueIn key l = t.valueIn key l := by
  unfold valueIn
  have same : l.find? (t'.hit key) = l.find? (t.hit key) := by
    induction l with
    | nil => rfl
    | cons b l ih =>
        rw [List.find?_cons, List.find?_cons, hit_congr (entries b List.mem_cons_self),
          ih fun c member => entries c (List.mem_cons_of_mem b member)]
  rw [same]
  cases is : l.find? (t.hit key) with
  | none => rfl
  | some b =>
      have value : (t'.nodes b).value = (t.nodes b).value :=
        congrArg Prod.snd (entries b (List.mem_of_find?_eq_some is))
      simp only [value]

theorem valueIn_append_of_not (none_ : ∀ b ∈ l, t.hit key b = false) :
    t.valueIn key (l ++ l') = t.valueIn key l' := by
  have no : l.find? (t.hit key) = none := by
    rw [List.find?_eq_none]
    exact fun b member => by simp [none_ b member]
  rw [valueIn, valueIn, List.find?_append, no, Option.none_or]

theorem valueIn_append_of_hit {b : Nat} (member : b ∈ l) (here : t.hit key b = true) :
    t.valueIn key (l ++ l') = t.valueIn key l := by
  have some_ : (l.find? (t.hit key)).isSome := List.find?_isSome.2 ⟨b, member, here⟩
  rw [valueIn, valueIn, List.find?_append, Option.or_of_isSome some_]

/-- What a walk sees depends on the links and entries along it. -/
theorem ahead_congr (path : t'.path head = t.path head)
    (entries : ∀ b ∈ t.path head, t'.entry b = t.entry b) :
    t'.ahead key head = t.ahead key head ∧ t'.found key head = t.found key head := by
  unfold ahead found
  rw [path]
  exact ⟨walked_congr fun b member => hit_congr (entries b member), valueIn_congr entries⟩

theorem Shaped.ahead_put (shaped : t.Shaped) (handed : t.Handed head) (k value : Nat) :
    (t.put k value).ahead key head = t.ahead key head ∧
      (t.put k value).found key head = t.found key head :=
  ahead_congr (shaped.path_put handed k value) fun _ member =>
    entry_put k value (shaped.lt_of_mem handed member)

section Unlink

variable (shaped : t.Shaped) (after : t.next p = some a) (handed : t.Handed head)

include shaped after handed

theorem Shaped.ahead_unlink_of_not_mem (apart : p ∉ t.path head) :
    (t.unlink p a).ahead key head = t.ahead key head ∧
      (t.unlink p a).found key head = t.found key head :=
  ahead_congr (shaped.path_unlink_of_not_mem after handed apart) fun b _ => entry_unlink b

/-- On the way to a node is the one before, if the way leads through that one at all. -/
theorem Shaped.ahead_of_next (member : p ∈ t.path head) (there : a ∈ t.ahead key head) :
    p ∈ t.ahead key head := by
  obtain ⟨front, back, split⟩ := shaped.split_of_mem after handed member
  have distinct := shaped.nodup handed
  rw [split, List.append_cons] at distinct
  rw [ahead, split, List.append_cons] at there ⊢
  rcases hit_or_none (t.hit key) (front ++ [p]) with ⟨c, inFront, here⟩ | none_
  · rw [walked_append_of_hit inFront here] at there
    have again := (List.nodup_append.1 distinct).2.2 a (walked_subset there) a List.mem_cons_self
    exact absurd rfl again
  · rw [walked_append_of_not none_]
    simp

/-- Unlinking on the way to a node takes it off the way; what comes instead was after it. -/
theorem Shaped.ahead_unlink_of_mem (member : p ∈ t.path head) {b : Nat}
    (there : b ∈ (t.unlink p a).ahead key head) :
    b ≠ a ∧ (b ∈ t.ahead key head ∨ b ∈ t.path (t.next a)) := by
  obtain ⟨front, back, split⟩ := shaped.split_of_mem after handed member
  have distinct := shaped.nodup handed
  have rest := shaped.rest_of_split handed split
  have path' := shaped.path_unlink_of_split after handed split
  have hits : (t.unlink p a).hit key = t.hit key := funext fun c => hit_congr (entry_unlink c)
  rw [ahead, hits, path', List.append_cons] at there
  rw [ahead, rest, split, List.append_cons]
  rw [split, List.append_cons] at distinct
  refine ⟨?_, ?_⟩
  · rintro rfl
    exact (List.nodup_middle.1 distinct).notMem (walked_subset there)
  · rcases hit_or_none (t.hit key) (front ++ [p]) with ⟨c, inFront, here⟩ | none_
    · rw [walked_append_of_hit inFront here] at there ⊢
      exact .inl there
    · rw [walked_append_of_not none_] at there ⊢
      rcases List.mem_append.1 there with inFront | inBack
      · exact .inl (List.mem_append_left _ inFront)
      · exact .inr (walked_subset inBack)

/-- Unlinking the node a walk would stop at makes it go on behind; else it finds the same. -/
theorem Shaped.found_unlink :
    (t.unlink p a).found key head = t.found key head ∨
      (t.nodes a).key = key ∧ (t.unlink p a).found key head = t.valueIn key (t.path (t.next a)) := by
  by_cases member : p ∈ t.path head
  · obtain ⟨front, back, split⟩ := shaped.split_of_mem after handed member
    have rest := shaped.rest_of_split handed split
    have new : (t.unlink p a).found key head = t.valueIn key (front ++ p :: back) := by
      rw [found, shaped.path_unlink_of_split after handed split]
      exact valueIn_congr fun b _ => entry_unlink b
    rw [new, found, split, rest, List.append_cons, List.append_cons front p (a :: back)]
    rcases hit_or_none (t.hit key) (front ++ [p]) with ⟨c, inFront, here⟩ | none_
    · rw [valueIn_append_of_hit inFront here, valueIn_append_of_hit inFront here]
      exact .inl rfl
    · rw [valueIn_append_of_not none_, valueIn_append_of_not none_]
      by_cases here : (t.nodes a).key = key
      · exact .inr ⟨here, rfl⟩
      · have other : ∀ c ∈ [a], t.hit key c = false := by
          rintro c single
          rw [List.mem_singleton.1 single]
          exact Bool.eq_false_iff.2 (mt hit_iff.1 here)
        exact .inl (valueIn_append_of_not (l := [a]) other).symm
  · exact .inl (shaped.ahead_unlink_of_not_mem after handed member).2

end Unlink

/-- A delete makes a walk find what it found before, or what is there now. -/
theorem Deletion.found {k : Nat} (deletion : t.Deletion k (mixHashHash k t.hashSize) t')
    (sound : t.Sound) (handed : t.Handed head) :
    t'.found key head = t.found key head ∨ t'.found key head = mixHashGet t'.hash key := by
  have chains := deletion.chain sound
  have size := deletion.hashSize
  have entries := deletion.entry
  cases deletion with
  | absent => exact .inl rfl
  | head => exact .inl rfl
  | @middle p a front back _ split before here =>
      have shaped := sound.shaped
      have after := shaped.next_of_split (shaped.heads _) split
      refine (shaped.found_unlink after handed).imp_right ?_
      rintro ⟨same, new⟩
      have is : k = key := here.symm.trans same
      subst is
      have none_ : ∀ b ∈ front ++ [p], t.hit k b = false :=
        fun b member => Bool.eq_false_iff.2 (mt hit_iff.1 (before b member))
      have rest := shaped.rest_of_split (shaped.heads _) split
      rw [get_hash, size, chains, Function.update_self, split, eraseP_middle before here,
        valueIn_congr fun b _ => entries b, List.append_cons, valueIn_append_of_not none_, ← rest]
      exact new

end NodeTable

/-! ## Threads -/

/-- The table, and for each thread in `mix_hash_get` the key and the pointer it copied. -/
structure Lookups (τ : Type) where
  table : NodeTable
  pending : τ → Option (Nat × Option Nat)

namespace Lookups

inductive Turn (τ : Type)
  /-- `hash_node_t node = hash->hash_nodes[hash_key]` -/
  | copy (t : τ) (key : Nat)
  /-- the rest of `mix_hash_get`, with the lock -/
  | walk (t : τ)
  | put (key value : Nat)
  | delete (key : Nat)
  | pop (idx : Nat)

variable {τ : Type}

def start (τ : Type) (size : Nat) : Lookups τ :=
  { table := NodeTable.init size
    pending := fun _ => none }

/-- The nodes the lookup of thread `t` looks at, and the value it returns. -/
def answer (s : Lookups τ) (t : τ) : Option (List Nat × Int) :=
  (s.pending t).bind fun (key, head) => s.table.walk key head

def step [DecidableEq τ] (s : Lookups τ) : Turn τ → Option (Lookups τ)
  | .copy t key =>
      match s.pending t with
      | none =>
          let head := (s.table.hashNodes (mixHashHash key s.table.hashSize)).list
          some { s with pending := Function.update s.pending t (some (key, head)) }
      | some _ => none
  | .walk t => (s.answer t).map fun _ => { s with pending := Function.update s.pending t none }
  | .put key value => some { s with table := s.table.put key value }
  | .delete key => (s.table.delete key).map fun table => { s with table := table }
  | .pop idx =>
      if idx < s.table.hashSize then
        (s.table.pop idx).map fun (_, table) => { s with table := table }
      else none

/-- The node is one that the pointer copied by thread `t` leads to, before its key. -/
def Ahead (s : Lookups τ) (t : τ) (a : Nat) : Prop :=
  ∃ key head, s.pending t = some (key, head) ∧ a ∈ s.table.ahead key head

/-- The steps that spare the lookups under way: a delete that unlinks a node does it on their
way, and a pop takes no node they still come to. -/
def Spared (s : Lookups τ) : Turn τ → Prop
  | .delete key => ∀ p a, s.table.search key = some (some (some p, a)) →
      ∀ t, s.Ahead t a → s.Ahead t p
  | .pop idx => ∀ a, 0 < (s.table.hashNodes idx).len → (s.table.hashNodes idx).list = some a →
      ∀ t, ¬ s.Ahead t a
  | _ => True

instance decidableAhead (s : Lookups τ) (t : τ) (a : Nat) : Decidable (s.Ahead t a) :=
  match call : s.pending t with
  | none => .isFalse fun ⟨_, _, pending, _⟩ => nomatch call.symm.trans pending
  | some (key, head) =>
      decidable_of_iff (a ∈ s.table.ahead key head)
        ⟨fun there => ⟨key, head, call, there⟩, fun ⟨_, _, pending, there⟩ => by
          cases call.symm.trans pending
          exact there⟩

instance decidableSpared [Fintype τ] (s : Lookups τ) : DecidablePred s.Spared
  | .delete key =>
      match found : s.table.search key with
      | some (some (some p, a)) =>
          decidable_of_iff (∀ t, s.Ahead t a → s.Ahead t p)
            ⟨fun spared _ _ searched => by
              cases found.symm.trans searched
              exact spared, fun spared => spared p a found⟩
      | none | some none | some (some (none, _)) =>
          .isTrue fun _ _ searched => nomatch found.symm.trans searched
  | .pop idx =>
      decidable_of_iff (∀ a ∈ (s.table.hashNodes idx).list, 0 < (s.table.hashNodes idx).len →
        ∀ t, ¬ s.Ahead t a) ⟨fun spared a more first => spared a first more,
          fun spared a first more => spared a more first⟩
  | .copy _ _ | .walk _ | .put _ _ => .isTrue trivial

/-- What the steps keep. -/
structure Inv (s : Lookups τ) : Prop where
  sound : s.table.Sound
  handed : ∀ t key head, s.pending t = some (key, head) → s.table.Handed head
  live : ∀ t a, s.Ahead t a → s.table.freed a = false

namespace Inv

variable {s : Lookups τ}

theorem init (size : Nat) : (start τ size).Inv where
  sound := NodeTable.Sound.init size
  handed := fun _ _ _ => nofun
  live := by
    rintro t a ⟨key, head, pending, _⟩
    cases pending

/-- A call that changes the table. -/
theorem of_table (inv : s.Inv) {table : NodeTable} (sound : table.Sound)
    (more : s.table.mallocs ≤ table.mallocs)
    (live : ∀ t key head, s.pending t = some (key, head) →
      ∀ a ∈ table.ahead key head, table.freed a = false) : Inv { s with table := table } where
  sound := sound
  handed := fun t key head pending a is => (inv.handed t key head pending a is).trans_le more
  live := by
    rintro t a ⟨key, head, pending, there⟩
    exact live t key head pending a there

theorem put (inv : s.Inv) (key value : Nat) : Inv { s with table := s.table.put key value } := by
  refine inv.of_table (inv.sound.put key value) (Nat.le_succ _) fun t k head pending a there => ?_
  have shaped := inv.sound.shaped
  rw [(shaped.ahead_put (inv.handed t k head pending) key value).1] at there
  exact inv.live t a ⟨k, head, pending, there⟩

theorem delete (inv : s.Inv) {key : Nat} {table : NodeTable} (spared : s.Spared (.delete key))
    (deletion : s.table.Deletion key (mixHashHash key s.table.hashSize) table) :
    Inv { s with table := table } := by
  have shaped := inv.sound.shaped
  refine inv.of_table (inv.sound.delete deletion) deletion.mallocs.ge
    fun t k head pending b there => ?_
  cases deletion with
  | absent => exact inv.live t b ⟨k, head, pending, there⟩
  | head => exact inv.live t b ⟨k, head, pending, there⟩
  | @middle p a front back searched split before here =>
      have handed := inv.handed t k head pending
      have after := shaped.next_of_split (shaped.heads _) split
      have live : b ≠ a ∧ s.table.freed b = false := by
        by_cases onWay : p ∈ s.table.path head
        · obtain ⟨other, old | behind⟩ := shaped.ahead_unlink_of_mem after handed onWay there
          · exact ⟨other, inv.live t b ⟨k, head, pending, old⟩⟩
          · refine ⟨other, inv.sound.held (mixHashHash key s.table.hashSize) b ?_⟩
            rw [shaped.rest_of_split (shaped.heads _) split] at behind
            rw [split]
            simp [behind]
        · have old : b ∈ s.table.ahead k head := by
            rw [← (shaped.ahead_unlink_of_not_mem after handed onWay).1]
            exact there
          refine ⟨?_, inv.live t b ⟨k, head, pending, old⟩⟩
          rintro rfl
          obtain ⟨k', head', pending', also⟩ := spared p b searched t ⟨k, head, pending, old⟩
          rw [pending] at pending'
          cases pending'
          exact onWay (walked_subset also)
      simpa [NodeTable.setBucket, NodeTable.unlink, Function.update_of_ne live.1] using live.2

theorem pop (inv : s.Inv) {i a : Nat} {back : List Nat} (spared : s.Spared (.pop i))
    (positive : 0 < (s.table.hashNodes i).len) (split : s.table.chain i = a :: back) :
    Inv { s with table := s.table.takeHead i a } := by
  have shaped := inv.sound.shaped
  refine inv.of_table (inv.sound.takeHead split) le_rfl fun t k head pending b there => ?_
  have linked : Linked s.table.next _ (s.table.chain i) := shaped.linked (shaped.heads i)
  have first : (s.table.hashNodes i).list = some a := (split ▸ linked).head
  have other : b ≠ a := by
    rintro rfl
    exact spared b positive first t ⟨k, head, pending, there⟩
  have live := inv.live t b ⟨k, head, pending, there⟩
  simpa [NodeTable.takeHead, NodeTable.setBucket, Function.update_of_ne other] using live

variable [DecidableEq τ] {s' : Lookups τ} {turn : Turn τ}

theorem copy (inv : s.Inv) {t : τ} {key : Nat} (stepped : s.step (.copy t key) = some s') :
    s'.Inv := by
  simp only [step] at stepped
  split at stepped
  · cases stepped
    refine ⟨inv.sound, fun t' k head pending => ?_, ?_⟩
    · simp only [Function.update_apply] at pending
      split at pending
      next =>
        cases pending
        exact inv.sound.shaped.heads _
      next => exact inv.handed t' k head pending
    · rintro t' a ⟨k, head, pending, there⟩
      simp only [Function.update_apply] at pending
      split at pending
      next =>
        cases pending
        exact inv.sound.held _ a (walked_subset there)
      next => exact inv.live t' a ⟨k, head, pending, there⟩
  · cases stepped

theorem walk (inv : s.Inv) {t : τ} (stepped : s.step (.walk t) = some s') : s'.Inv := by
  obtain ⟨_, _, rfl⟩ := Option.map_eq_some_iff.1 stepped
  have old : ∀ {t' call}, Function.update s.pending t none t' = some call →
      s.pending t' = some call := by
    intro t' call pending
    rw [Function.update_apply] at pending
    split at pending
    next => cases pending
    next => exact pending
  refine ⟨inv.sound, fun t' k head pending => inv.handed t' k head (old pending), ?_⟩
  rintro t' a ⟨k, head, pending, there⟩
  exact inv.live t' a ⟨k, head, old pending, there⟩

end Inv

section Steps

variable [DecidableEq τ] {s s' : Lookups τ} {turn : Turn τ}

theorem Inv.step (inv : s.Inv) (spared : s.Spared turn) (stepped : s.step turn = some s') :
    s'.Inv := by
  cases turn with
  | copy t key => exact inv.copy stepped
  | walk t => exact inv.walk stepped
  | put key value =>
      cases stepped
      exact inv.put key value
  | delete key =>
      obtain ⟨table, deleted, deletion⟩ := NodeTable.delete_cases inv.sound.shaped key
      rw [Lookups.step, deleted] at stepped
      cases stepped
      exact inv.delete spared deletion
  | pop i =>
      rw [Lookups.step] at stepped
      split at stepped
      · have pop := inv.sound.shaped.pop_cases i
        generalize s.table.pop i = answer at pop stepped
        cases pop with
        | marker =>
            cases stepped
            exact inv
        | head positive split =>
            cases stepped
            exact inv.pop spared positive split
        | null => cases stepped
      · cases stepped

/-- What a step does to a lookup of another thread: the value it will find stays, or becomes
what is there now. -/
theorem found_step (inv : s.Inv) (stepped : s.step turn = some s') {t : τ} {key : Nat}
    {head : Option Nat} (pending : s.pending t = some (key, head)) (waits : turn ≠ .walk t) :
    s'.pending t = some (key, head) ∧
      (s'.table.found key head = s.table.found key head ∨
        s'.table.found key head = mixHashGet s'.table.hash key) := by
  have sound := inv.sound
  have handed := inv.handed t key head pending
  cases turn with
  | copy t' k =>
      simp only [step] at stepped
      split at stepped
      next idle =>
        cases stepped
        have other : t ≠ t' := by
          rintro rfl
          rw [idle] at pending
          cases pending
        exact ⟨by rw [← pending]; exact Function.update_of_ne other _ _, .inl rfl⟩
      next => cases stepped
  | walk t' =>
      obtain ⟨_, _, rfl⟩ := Option.map_eq_some_iff.1 stepped
      have other : t ≠ t' := fun same => waits (same ▸ rfl)
      exact ⟨by rw [← pending]; exact Function.update_of_ne other _ _, .inl rfl⟩
  | put k value =>
      cases stepped
      exact ⟨pending, .inl (sound.shaped.ahead_put handed k value).2⟩
  | delete k =>
      obtain ⟨table, deleted, deletion⟩ := NodeTable.delete_cases sound.shaped k
      rw [step, deleted] at stepped
      cases stepped
      exact ⟨pending, deletion.found sound handed⟩
  | pop i =>
      rw [step] at stepped
      split at stepped
      · have pop := sound.shaped.pop_cases i
        generalize s.table.pop i = answer at pop stepped
        cases pop with
        | marker | head =>
            cases stepped
            exact ⟨pending, .inl rfl⟩
        | null => cases stepped
      · cases stepped

/-- A step that does not spare the lookups leaves one that would meet a node given back. -/
theorem exists_freed_ahead (inv : s.Inv) (stepped : s.step turn = some s')
    (disturbed : ¬ s.Spared turn) : ∃ t a, s'.Ahead t a ∧ s'.table.freed a = true := by
  have shaped := inv.sound.shaped
  cases turn with
  | copy => exact absurd trivial disturbed
  | walk => exact absurd trivial disturbed
  | put => exact absurd trivial disturbed
  | delete key =>
      obtain ⟨table, deleted, deletion⟩ := NodeTable.delete_cases shaped key
      rw [step, deleted] at stepped
      cases stepped
      unfold Spared at disturbed
      push Not at disturbed
      obtain ⟨p, a, searched, t, ⟨k, head, pending, there⟩, apart⟩ := disturbed
      cases deletion with
      | absent found => cases found.symm.trans searched
      | head found => cases found.symm.trans searched
      | middle found split =>
          cases found.symm.trans searched
          have handed := inv.handed t k head pending
          have after := shaped.next_of_split (shaped.heads _) split
          have offWay : p ∉ s.table.path head := fun onWay =>
            apart ⟨k, head, pending, shaped.ahead_of_next after handed onWay there⟩
          refine ⟨t, a, ⟨k, head, pending, ?_⟩, Function.update_self _ _ _⟩
          rw [← (shaped.ahead_unlink_of_not_mem after handed offWay).1] at there
          exact there
  | pop i =>
      unfold Spared at disturbed
      push Not at disturbed
      obtain ⟨a, more, first, t, there⟩ := disturbed
      rw [step] at stepped
      split at stepped
      · rw [NodeTable.pop, if_pos more, first] at stepped
        cases stepped
        exact ⟨t, a, there, Function.update_self _ _ _⟩
      · cases stepped

end Steps

/-- **While the steps spare the lookups, a lookup ends, meets no node that was given back, and
returns what `mix_hash_get` would have returned at a moment between its copy and its walk.** -/
theorem mixHashGet_concurrent [DecidableEq τ] {size : Nat} {before during : List (Turn τ)}
    {s m u : Lookups τ} {t : τ} {key : Nat} (earlier : Run step Spared (start τ size) before s)
    (copied : s.step (.copy t key) = some m) (later : Run step Spared m during u)
    (waits : .walk t ∉ during) :
    ∃ visited value, u.answer t = some (visited, value) ∧
      (∀ a ∈ visited, u.table.freed a = false) ∧
      ∃ front back x, during = front ++ back ∧ exec step m front = some x ∧
        mixHashGet x.table.hash key = value := by
  have keeps : ∀ (s : Lookups τ) turn s', s.Inv → s.Spared turn → s.step turn = some s' → s'.Inv :=
    fun s turn s' inv spared stepped => inv.step spared stepped
  have inv : s.Inv := earlier.invariant keeps (Inv.init size)
  have invM : m.Inv := inv.copy copied
  obtain ⟨head, pending, own⟩ : ∃ head, m.pending t = some (key, head) ∧
      m.table.found key head = mixHashGet m.table.hash key := by
    simp only [step] at copied
    split at copied
    · cases copied
      exact ⟨_, Function.update_self _ _ _, (NodeTable.get_hash _ key).symm⟩
    · cases copied
  have run := later.restrict (P := (· ≠ .walk t)) fun turn member same => waits (same ▸ member)
  let Waiting := fun s : Lookups τ => s.Inv ∧ s.pending t = some (key, head)
  have waiting : ∀ (s : Lookups τ) turn s', Waiting s → s.Spared turn ∧ turn ≠ .walk t →
      s.step turn = some s' → Waiting s' := fun s turn s' ⟨inv, pending⟩ ⟨spared, other⟩ stepped =>
    ⟨inv.step spared stepped, (found_step inv stepped pending other).1⟩
  obtain ⟨invU, pendingU⟩ : Waiting u := run.invariant waiting ⟨invM, pending⟩
  have answered : u.answer t = some (u.table.ahead key head, u.table.found key head) := by
    rw [answer, pendingU]
    exact invU.sound.shaped.walk_eq (invU.handed t key head pendingU) key
  refine ⟨_, _, answered, fun a there => invU.live t a ⟨key, head, pendingU, there⟩, ?_⟩
  have found := run.attained (g := fun s => mixHashGet s.table.hash key) waiting
    (fun s turn s' ⟨inv, pending⟩ ⟨_, other⟩ stepped => (found_step inv stepped pending other).2)
    ⟨invM, pending⟩
  rcases found with same | ⟨front, back, x, split, ran, is⟩
  · exact ⟨[], during, m, rfl, rfl, (same.trans own).symm⟩
  · exact ⟨front, back, x, split, ran, is.symm⟩

/-- A lookup of the node that a delete unlinks behind another one of the same bucket. -/
theorem mixHashGet_concurrent_of_two :
    ∃ s m u : Lookups Bool, Run step Spared (start Bool 1) [.put 7 1, .put 8 2] s ∧
      s.step (.copy true 7) = some m ∧ Run step Spared m [.put 9 3, .delete 7] u ∧
      ∃ visited value, u.answer true = some (visited, value) ∧
        (∀ a ∈ visited, u.table.freed a = false) ∧
        ∃ front back x, [.put 9 3, .delete 7] = front ++ back ∧ exec step m front = some x ∧
          mixHashGet x.table.hash 7 = value := by
  let checked := fun (s : Lookups Bool) turn => if decide (s.Spared turn) then s.step turn else none
  have all : ((exec checked (start Bool 1) [.put 7 1, .put 8 2]).bind fun s =>
      (s.step (.copy true 7)).bind fun m => exec checked m [.put 9 3, .delete 7]).isSome := by
    decide +kernel
  obtain ⟨u, ran⟩ := Option.isSome_iff_exists.1 all
  obtain ⟨s, before, rest⟩ := Option.bind_eq_some_iff.1 ran
  obtain ⟨m, copied, during⟩ := Option.bind_eq_some_iff.1 rest
  have earlier := Run.of_checked (fun _ _ => of_decide_eq_true) before
  have later := Run.of_checked (fun _ _ => of_decide_eq_true) during
  exact ⟨s, m, u, earlier, copied, later, mixHashGet_concurrent earlier copied later (by simp)⟩

/-- A pop between the copy and the walk: the walk starts at a node that was given back. -/
theorem mixHashGet_concurrent_freed :
    (exec step (start Bool 1) [.put 7 1, .copy true 7, .pop 0]).map
      (fun s => (s.answer true, s.table.freed 0)) = some (some ([0], 1), true) := by
  decide +kernel

end Lookups

end Mixdk
