/-
# Async.Work -- operations still to do, and which of them commute

`Work` is one operation of a worker: an action of the nvm_worker, or one half of a
task of the ssd_worker.  `Work.act` carries it out for a segment.

The two halves of a task stay inside the segment's stripes and its slots of the
staging areas, an action inside the segment's part of the buffer; besides, each may
read or fill a range of the callers' memory.  Two operations on different parts
commute as soon as neither fills memory the other one uses (`MemClaim.Apart`).
-/
import Mixdk.Async.Effects
import Mixdk.Core.Scheduler

namespace Mixdk

open Footprint

set_option autoImplicit false

/-! ## Claims on memory -/

/-- `len` blocks at address `buf` that are filled (`dst`) or only read. -/
structure MemClaim where
  dst : Bool
  buf : Nat
  len : Nat

namespace MemClaim

def range (c : MemClaim) : Set Loc := memRange c.buf c.len

/-- The part of the claim that is written. -/
def written (c : MemClaim) : Set Loc := {l | c.dst = true ∧ l ∈ c.range}

/-- Neither claim fills memory of the other. -/
def Apart (c d : MemClaim) : Prop :=
  c.dst = true ∨ d.dst = true →
    c.len = 0 ∨ d.len = 0 ∨ c.buf + c.len * BLOCK_SIZE ≤ d.buf ∨
      d.buf + d.len * BLOCK_SIZE ≤ c.buf

instance (c d : MemClaim) : Decidable (c.Apart d) := by
  unfold Apart
  infer_instance

/-- A part of a claim. -/
def Within (c d : MemClaim) : Prop :=
  c.len = 0 ∨ ((c.dst = true → d.dst = true) ∧ d.buf ≤ c.buf ∧
    c.buf + c.len * BLOCK_SIZE ≤ d.buf + d.len * BLOCK_SIZE)

variable {c c' d : MemClaim}

theorem Apart.symm (apart : Apart c d) : Apart d c := by
  intro either
  rcases apart either.symm with empty | empty | before | after
  · exact .inr (.inl empty)
  · exact .inl empty
  · exact .inr (.inr (.inr before))
  · exact .inr (.inr (.inl after))

theorem Within.refl (c : MemClaim) : Within c c := .inr ⟨fun dst => dst, Nat.le_refl _, Nat.le_refl _⟩

theorem Within.apart (within : Within c' c) (apart : Apart c d) : Apart c' d := by
  intro either
  rcases within with empty | ⟨dst, low, high⟩
  · exact .inl empty
  · rcases apart (either.imp_left dst) with empty | empty | before | after
    · left
      simp only [BLOCK_SIZE] at high
      omega
    · exact .inr (.inl empty)
    · exact .inr (.inr (.inl (high.trans before)))
    · exact .inr (.inr (.inr (after.trans low)))

theorem Apart.disjoint (apart : Apart c d) (either : c.dst = true ∨ d.dst = true) {l : Loc}
    (mine : l ∈ c.range) : l ∉ d.range := by
  rintro ⟨a, rfl, low, high⟩
  obtain ⟨b, same, low', high'⟩ := mine
  cases same
  rcases apart either with empty | empty | before | after
  · rw [empty] at high'
    omega
  · rw [empty] at high
    omega
  · omega
  · omega

end MemClaim

/-! ## Operations -/

inductive Work
  /-- The first half of a task of the ssd_worker. -/
  | stage (task : IoTask)
  /-- The second half. -/
  | complete (task : IoTask)
  /-- An action of the nvm_worker. -/
  | action (a : Action)

/-- Carry out an operation of a segment's workers. -/
def Work.act (x : SegIdx × Work) (m : Machine) : Machine :=
  match x.2 with
  | .stage task => m.ssdTaskStage x.1 task
  | .complete task => m.ssdTaskComplete x.1 task
  | .action a => m.perform a

/-- The memory a task of an SSD queue uses. -/
def ssdClaim (task : IoTask) : MemClaim :=
  ⟨decide (task.opcode &&& (MIX_READ ||| MIX_WRITE) = MIX_READ), task.buf, task.len⟩

def Action.claim : Action → MemClaim
  | .readFromBuffer dst _ => ⟨true, dst, 1⟩
  | .writeToBuffer src _ _ _ => ⟨false, src, 1⟩
  | .postTaskToSsd _ | .bufferClear _ | .addRet _ _ | .nvmWriteBlockCompleted _ => ⟨false, 0, 0⟩

def Work.claim : Work → MemClaim
  | .stage task | .complete task => ssdClaim task
  | .action a => a.claim

/-- The action stays in the segment's part of the buffer. -/
def Action.InSegment (P : Nat) (idx : SegIdx) : Action → Prop
  | .readFromBuffer _ b | .writeToBuffer _ _ b _ | .bufferClear b =>
      idx * P ≤ b ∧ b < idx * P + P
  | .postTaskToSsd _ | .addRet _ _ | .nvmWriteBlockCompleted _ => True

/-- The operation stays in the segment's part of the buffer and of the SSD. -/
def Work.InSegment (P : Nat) (idx : SegIdx) : Work → Prop
  | .stage task | .complete task => InStripe idx task
  | .action a => a.InSegment P idx

/-! ## Territories -/

def nvmTerritory (P : Nat) (idx : SegIdx) : Set Loc :=
  {l | ∃ b, (idx * P ≤ b ∧ b < idx * P + P) ∧ (l = .data b ∨ l = .record b)}

def ssdTerritory (idx : SegIdx) : Set Loc :=
  {l | (∃ b, l = .ssd b ∧ segmentOf b = idx) ∨ (∃ k, l = .memalignSrc k ∧ k / 4 = idx) ∨
    ∃ k, l = .memalignDst k ∧ k / 4 = idx}

/-- What an operation of a segment may touch outside the callers' memory. -/
def Work.territory (P : Nat) (idx : SegIdx) : Work → Set Loc
  | .stage _ | .complete _ => ssdTerritory idx
  | .action _ => nvmTerritory P idx

section

variable {P : Nat} {idx : SegIdx} {task : IoTask}

theorem readSlot_eq (offset : Nat) : readSlot offset = segmentOf offset := by
  have low : offset &&& 15 = offset % 16 := Nat.and_two_pow_sub_one_eq_mod offset 4
  simp only [readSlot, low, segmentOf, STRIPE_SIZE, SEGMENT_NUM]
  omega

theorem InStripe.len_le (stripe : InStripe idx task) : task.len ≤ 4 := by
  have := stripe.inside
  simp only [STRIPE_SIZE] at this
  omega

theorem InStripe.ssdRange (stripe : InStripe idx task) :
    ssdRange task.offset task.len ⊆ ssdTerritory idx := by
  rintro l ⟨k, rfl, low, high⟩
  exact .inl ⟨k, rfl, stripe.of_block low high⟩

theorem InStripe.srcRange (stripe : InStripe idx task) :
    srcRange (stagingBlock idx) task.len ⊆ ssdTerritory idx := by
  rintro l ⟨k, rfl, low, high⟩
  have := stripe.len_le
  simp only [stagingBlock] at low high
  exact .inr (.inl ⟨k, rfl, by omega⟩)

theorem InStripe.dstRange (stripe : InStripe idx task) :
    dstRange (stagingBlock (readSlot task.offset)) task.len ⊆ ssdTerritory idx := by
  rw [readSlot_eq, stripe.segment]
  rintro l ⟨k, rfl, low, high⟩
  have := stripe.len_le
  simp only [stagingBlock] at low high
  exact .inr (.inr ⟨k, rfl, by omega⟩)

/-- An operation reads its territory and the memory it claims, and writes the territory and
the memory it fills. -/
def Bounded (T : Set Loc) (claim : MemClaim) (f : Machine → Machine) : Prop :=
  Touches machineView f (T ∪ claim.range) (T ∪ claim.written)

theorem bounded_of_touches {T R W : Set Loc} {claim : MemClaim} {f : Machine → Machine}
    (touches : Touches machineView f R W) (reads : R ⊆ T ∪ claim.range)
    (writes : W ⊆ T ∪ claim.written) : Bounded T claim f := by
  refine touches.widen reads writes ?_
  rintro l (inside | inside) _
  · exact .inl inside
  · exact .inr inside.2

theorem bounded_id (T : Set Loc) (claim : MemClaim) : Bounded T claim fun m => m :=
  bounded_of_touches Touches.id (Set.empty_subset _) (Set.empty_subset _)

theorem bounded_stage (stripe : InStripe idx task) :
    Bounded (ssdTerritory idx) (ssdClaim task) fun m => m.ssdTaskStage idx task := by
  unfold Machine.ssdTaskStage
  by_cases read : task.opcode &&& (MIX_READ ||| MIX_WRITE) = MIX_READ
  · simp only [if_pos read]
    apply bounded_of_touches (touches_ssdReadStage task.len task.offset)
    · exact fun l inside => .inl (stripe.ssdRange inside)
    · exact fun l inside => .inl (stripe.dstRange inside)
  · by_cases write : task.opcode &&& (MIX_READ ||| MIX_WRITE) = MIX_WRITE
    · simp only [if_neg read, if_pos write]
      apply bounded_of_touches (touches_ssdWriteStage task.buf task.len idx)
      · exact fun l inside => .inr inside
      · exact fun l inside => .inl (stripe.srcRange inside)
    · simp only [if_neg read, if_neg write]
      apply bounded_id

theorem bounded_complete (stripe : InStripe idx task) :
    Bounded (ssdTerritory idx) (ssdClaim task) fun m => m.ssdTaskComplete idx task := by
  unfold Machine.ssdTaskComplete
  by_cases read : task.opcode &&& (MIX_READ ||| MIX_WRITE) = MIX_READ
  · simp only [if_pos read]
    have touches := (touches_addRet task.ret task.len).comp
      (touches_ssdReadCopy task.buf task.len task.offset)
    apply bounded_of_touches touches
    · rintro l (inside | inside)
      · exact .inl (stripe.dstRange inside)
      · cases inside
    · rintro l (inside | inside)
      · exact .inr ⟨decide_eq_true read, inside⟩
      · cases inside
  · by_cases write : task.opcode &&& (MIX_READ ||| MIX_WRITE) = MIX_WRITE
    · simp only [if_neg read, if_pos write]
      have touches := (touches_ssdWriteBlockCompleted task.len).comp
        (touches_ssdWriteFlush task.len task.offset idx)
      apply bounded_of_touches touches
      · rintro l (inside | inside)
        · exact .inl (stripe.srcRange inside)
        · cases inside
      · rintro l (inside | inside)
        · exact .inl (stripe.ssdRange inside)
        · cases inside
    · simp only [if_neg read, if_neg write]
      apply bounded_id

theorem bounded_perform {a : Action} (inside : a.InSegment P idx) :
    Bounded (nvmTerritory P idx) a.claim fun m => m.perform a := by
  cases a with
  | postTaskToSsd task => exact bounded_id _ _
  | readFromBuffer dst b =>
      apply bounded_of_touches (touches_readFromBuffer dst b)
      · rintro l rfl
        exact .inl ⟨b, inside, .inl rfl⟩
      · exact fun l range => .inr ⟨rfl, range⟩
  | writeToBuffer src srcBlock b flags =>
      apply bounded_of_touches (touches_writeToBuffer src srcBlock b flags)
      · exact fun l range => .inr range
      · rintro l (rfl | rfl)
        · exact .inl ⟨b, inside, .inl rfl⟩
        · exact .inl ⟨b, inside, .inr rfl⟩
  | bufferClear b =>
      apply bounded_of_touches (touches_bufferClear b)
      · rintro l rfl
        exact .inl ⟨b, inside, .inr rfl⟩
      · rintro l rfl
        exact .inl ⟨b, inside, .inr rfl⟩
  | addRet ret n =>
      exact bounded_of_touches (touches_addRet ret n) (Set.empty_subset _) (Set.empty_subset _)
  | nvmWriteBlockCompleted n =>
      exact bounded_of_touches (touches_nvmWriteBlockCompleted n) (Set.empty_subset _)
        (Set.empty_subset _)

theorem Work.bounded {w : Work} (inside : w.InSegment P idx) :
    Bounded (w.territory P idx) w.claim (Work.act (idx, w)) := by
  cases w with
  | stage task => exact bounded_stage inside
  | complete task => exact bounded_complete inside
  | action a => exact bounded_perform inside

/-! ## Operations that commute -/

theorem mem_not_nvmTerritory {a : Nat} : Loc.mem a ∉ nvmTerritory P idx := by
  rintro ⟨b, -, h | h⟩ <;> cases h

theorem mem_not_ssdTerritory {a : Nat} : Loc.mem a ∉ ssdTerritory idx := by
  rintro (⟨b, h, -⟩ | ⟨b, h, -⟩ | ⟨b, h, -⟩) <;> cases h

theorem nvm_ssd_disjoint {idx' : SegIdx} {l : Loc} (nvm : l ∈ nvmTerritory P idx) :
    l ∉ ssdTerritory idx' := by
  obtain ⟨b, -, rfl | rfl⟩ := nvm
  all_goals rintro (⟨c, h, -⟩ | ⟨c, h, -⟩ | ⟨c, h, -⟩) <;> cases h

theorem segment_blocks_disjoint {i j : SegIdx} (other : i ≠ j) {b : Nat}
    (mine : i * P ≤ b ∧ b < i * P + P) : ¬ (j * P ≤ b ∧ b < j * P + P) := by
  intro theirs
  rcases Nat.lt_or_gt_of_ne (fun same => other (Fin.ext same) : (i : Nat) ≠ j) with less | more
  · have := Nat.mul_le_mul_right P (Nat.succ_le_of_lt less)
    rw [Nat.succ_mul] at this
    omega
  · have := Nat.mul_le_mul_right P (Nat.succ_le_of_lt more)
    rw [Nat.succ_mul] at this
    omega

theorem nvmTerritory_disjoint {i j : SegIdx} (other : i ≠ j) {l : Loc}
    (mine : l ∈ nvmTerritory P i) : l ∉ nvmTerritory P j := by
  obtain ⟨b, inside, rfl | rfl⟩ := mine
  all_goals
    rintro ⟨c, inside', same | same⟩
    all_goals cases same
    all_goals exact segment_blocks_disjoint other inside inside'

theorem ssdTerritory_disjoint {i j : SegIdx} (other : i ≠ j) {l : Loc}
    (mine : l ∈ ssdTerritory i) : l ∉ ssdTerritory j := by
  rcases mine with ⟨b, rfl, here⟩ | ⟨k, rfl, here⟩ | ⟨k, rfl, here⟩
  all_goals
    rintro (⟨c, same, there⟩ | ⟨c, same, there⟩ | ⟨c, same, there⟩)
    all_goals cases same
  · exact other (here.symm.trans there)
  · exact other (Fin.ext (here.symm.trans there))
  · exact other (Fin.ext (here.symm.trans there))

/-- The workers of different segments have different territories. -/
theorem territory_disjoint {i j : SegIdx} (other : i ≠ j) (x y : Work) {l : Loc}
    (mine : l ∈ x.territory P i) : l ∉ y.territory P j := by
  cases x with
  | stage _ | complete _ =>
      cases y with
      | stage _ | complete _ => exact ssdTerritory_disjoint other mine
      | action _ => exact fun theirs => nvm_ssd_disjoint theirs mine
  | action _ =>
      cases y with
      | stage _ | complete _ => exact nvm_ssd_disjoint mine
      | action _ => exact nvmTerritory_disjoint other mine

theorem mem_not_territory (w : Work) {a : Nat} : Loc.mem a ∉ w.territory P idx := by
  cases w with
  | stage _ | complete _ => exact mem_not_ssdTerritory
  | action _ => exact mem_not_nvmTerritory

theorem Bounded.commute {T T' : Set Loc} {c d : MemClaim} {f g : Machine → Machine}
    (first : Bounded T c f) (second : Bounded T' d g) (territory : ∀ l ∈ T, l ∉ T')
    (noMem : ∀ a, Loc.mem a ∉ T) (noMem' : ∀ a, Loc.mem a ∉ T') (apart : c.Apart d) :
    Function.Commute f g := by
  have outside : ∀ c : MemClaim, ∀ S : Set Loc, (∀ a, Loc.mem a ∉ S) → ∀ l ∈ c.range, l ∉ S := by
    rintro c S none l ⟨a, rfl, -⟩
    exact none a
  refine Touches.commute first second ?_ ?_
  · rintro l (mine | ⟨dst, mine⟩)
    · have notMem : l ∉ d.range := fun range => outside d T noMem l range mine
      exact ⟨fun h => h.elim (territory l mine) notMem,
        fun h => h.elim (territory l mine) fun written => notMem written.2⟩
    · have notMem := apart.disjoint (.inl dst) mine
      have notTheirs := outside c T' noMem' l mine
      exact ⟨fun h => h.elim notTheirs notMem, fun h => h.elim notTheirs fun written =>
        notMem written.2⟩
  · rintro l (theirs | ⟨dst, theirs⟩) (mine | mine)
    · exact territory l mine theirs
    · exact outside c T' noMem' l mine theirs
    · exact outside d T noMem l theirs mine
    · exact apart.disjoint (.inr dst) mine theirs

/-- **Operations of different segments commute.** -/
theorem Work.commute {i j : SegIdx} (other : i ≠ j) {x y : Work} (left : x.InSegment P i)
    (right : y.InSegment P j) (apart : x.claim.Apart y.claim) :
    Function.Commute (Work.act (i, x)) (Work.act (j, y)) :=
  (Work.bounded left).commute (Work.bounded right) (fun _ => territory_disjoint other x y)
    (fun _ => mem_not_territory x) (fun _ => mem_not_territory y) apart

/-- **An action of the nvm_worker commutes with the ssd_worker's halves of tasks.** -/
theorem Work.commute_action {x : Work} {a : Action} (notAction : ∀ b, x ≠ .action b)
    (left : x.InSegment P idx) (right : a.InSegment P idx) (apart : x.claim.Apart a.claim) :
    Function.Commute (Work.act (idx, x)) (Work.act (idx, .action a)) := by
  refine (Work.bounded left).commute (bounded_perform right) ?_ (fun _ => mem_not_territory x)
    (fun _ => mem_not_nvmTerritory) apart
  intro l mine theirs
  cases x with
  | stage _ | complete _ => exact nvm_ssd_disjoint theirs mine
  | action b => exact notAction b rfl

/-- No operation touches the index. -/
theorem Work.act_md (x : SegIdx × Work) (m : Machine) : (Work.act x m).md = m.md := by
  obtain ⟨idx, w⟩ := x
  cases w with
  | stage task =>
      simp only [act, Machine.ssdTaskStage]
      split
      · rfl
      · split <;> rfl
  | complete task =>
      simp only [act, Machine.ssdTaskComplete]
      split
      · rfl
      · split <;> rfl
  | action a => cases a <;> rfl

/-- Setting the index commutes with every operation. -/
theorem Work.act_setMd (x : SegIdx × Work) (m : Machine) (md : Metadata) :
    Work.act x { m with md := md } = { Work.act x m with md := md } := by
  obtain ⟨idx, w⟩ := x
  cases w with
  | stage task =>
      simp only [act, Machine.ssdTaskStage]
      split
      · rfl
      · split <;> rfl
  | complete task =>
      simp only [act, Machine.ssdTaskComplete]
      split
      · rfl
      · split <;> rfl
  | action a => cases a <;> rfl

end

end Mixdk
