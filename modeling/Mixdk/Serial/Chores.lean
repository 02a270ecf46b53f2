/-
# Serial.Chores -- what the workers of the pipeline do, and which of it commutes

`Storage` is what the requests are about: the machine, and the blocks of the NVM region.  A
`Chore` is one operation on it: a deed of an nvm_worker, or one of the three parts of a task of
an ssd_worker.  `Async.Work` has the operations on the machine alone; here are the accesses to
the NVM region too, and the count of an SSD task is a part of its own.

Besides its range of the callers' memory, a chore may use a block of the NVM region
(`Chore.nvm`).  Chores of different stations commute when neither fills memory or writes NVM
blocks of the other (`Chore.commute`), and a deed commutes with the ssd_worker's chores.
-/
import Mixdk.Async.Subtask
import Mixdk.Pipeline.System

namespace Mixdk

open Footprint

set_option autoImplicit false

/-- The machine, and the blocks at `nvm_addr`. -/
structure Storage where
  m : Machine
  region : Nat → Block

namespace Storage

/-- A deed of an nvm_worker; a task posted to the SSD queue is not executed yet. -/
def perform (d : Storage) : Deed → Storage
  | .act a => { d with m := d.m.perform a }
  | .nvmRead dst block =>
      { d with m := { d.m with mem := d.m.mem.storeBlocks dst 1 fun _ => d.region block } }
  | .nvmWrite src block =>
      { d with region := Function.update d.region block (d.m.mem.load src) }

def onMachine (f : Machine → Machine) (d : Storage) : Storage := { d with m := f d.m }

end Storage

/-! ## Locations -/

/-- A location of the device. -/
inductive Spot
  | machine (l : Loc)
  | region (b : Nat)

def Spot.Value : Spot → Type
  | .machine l => l.Value
  | .region _ => Block

def Storage.get (p : Spot) (d : Storage) : p.Value :=
  match p with
  | .machine l => d.m.get l
  | .region b => d.region b

theorem Storage.ext_get {d e : Storage} (get : ∀ p, d.get p = e.get p)
    (tallies : d.m.counters = e.m.counters) : d = e := by
  obtain ⟨m, region⟩ := d
  obtain ⟨m', region'⟩ := e
  obtain rfl : m = m' := Machine.ext_get (fun l => get (.machine l)) tallies
  obtain rfl : region = region' := funext fun b => get (.region b)
  rfl

/-- The device by locations. -/
def storageView : View Storage Spot ((Nat → Nat) × Nat × Nat) where
  Value := Spot.Value
  get := Storage.get
  tally := fun d => d.m.counters
  ext := fun _ _ => Storage.ext_get

/-- Locations of the machine. -/
def onLocs (S : Set Loc) : Set Spot := {p | ∃ l ∈ S, p = .machine l}

/-- Blocks of the NVM region. -/
def onBlocks (S : Set Nat) : Set Spot := {p | ∃ b ∈ S, p = .region b}

theorem machine_mem_onLocs {S : Set Loc} {l : Loc} : .machine l ∈ onLocs S ↔ l ∈ S :=
  ⟨by rintro ⟨k, inside, ⟨⟩⟩; exact inside, fun inside => ⟨l, inside, rfl⟩⟩

/-- An operation on the machine touches the same locations of the device. -/
theorem touches_onMachine {f : Machine → Machine} {R W : Set Loc}
    (touches : Touches machineView f R W) :
    Touches storageView (Storage.onMachine f) (onLocs R) (onLocs W) where
  frame := by
    intro d p outside
    cases p with
    | machine l => exact touches.frame d.m l (mt machine_mem_onLocs.2 outside)
    | region b => rfl
  depends := by
    rintro d e same _ ⟨l, inside, rfl⟩
    exact touches.depends d.m e.m (fun k member => same (.machine k) ⟨k, member, rfl⟩) l inside
  adds := by
    obtain ⟨a, adds⟩ := touches.adds
    exact ⟨a, fun d => adds d.m⟩

/-! ## Chores -/

inductive Chore
  /-- The first half of a task of the ssd_worker. -/
  | stage (task : IoTask)
  /-- The second half, but for the count. -/
  | move (task : IoTask)
  | count (task : IoTask)
  /-- A deed of the nvm_worker. -/
  | deed (d : Deed)

/-- Carry out a chore of a station's workers. -/
def Chore.act (x : SegIdx × Chore) (d : Storage) : Storage :=
  match x.2 with
  | .stage task => d.onMachine fun m => m.ssdTaskStage x.1 task
  | .move task => d.onMachine fun m => m.ssdTaskMove x.1 task
  | .count task => d.onMachine fun m => m.ssdTaskCount task
  | .deed what => d.perform what

/-- `len` blocks of the NVM region from `block` on that are written, or only read. -/
structure NvmClaim where
  write : Bool
  block : Nat
  len : Nat

namespace NvmClaim

def none : NvmClaim := ⟨false, 0, 0⟩

def range (c : NvmClaim) : Set Nat := {b | c.block ≤ b ∧ b < c.block + c.len}

def written (c : NvmClaim) : Set Nat := {b | c.write = true ∧ b ∈ c.range}

/-- Neither claim writes blocks of the other. -/
def Apart (c d : NvmClaim) : Prop :=
  c.write = true ∨ d.write = true →
    c.len = 0 ∨ d.len = 0 ∨ c.block + c.len ≤ d.block ∨ d.block + d.len ≤ c.block

instance (c d : NvmClaim) : Decidable (c.Apart d) := by
  unfold Apart
  infer_instance

/-- A part of a claim. -/
def Within (c d : NvmClaim) : Prop :=
  c.len = 0 ∨ ((c.write = true → d.write = true) ∧ d.block ≤ c.block ∧
    c.block + c.len ≤ d.block + d.len)

variable {c c' d : NvmClaim}

theorem Apart.symm (apart : Apart c d) : Apart d c := by
  intro either
  rcases apart either.symm with empty | empty | before | after
  · exact .inr (.inl empty)
  · exact .inl empty
  · exact .inr (.inr (.inr before))
  · exact .inr (.inr (.inl after))

theorem Within.apart (within : Within c' c) (apart : Apart c d) : Apart c' d := by
  intro either
  rcases within with empty | ⟨write, low, high⟩
  · exact .inl empty
  · rcases apart (either.imp_left write) with empty | empty | before | after
    · exact .inl (by omega)
    · exact .inr (.inl empty)
    · exact .inr (.inr (.inl (high.trans before)))
    · exact .inr (.inr (.inr (after.trans low)))

theorem apart_none : Apart c none := fun _ => .inr (.inl rfl)

theorem Apart.disjoint (apart : Apart c d) (either : c.write = true ∨ d.write = true) {b : Nat}
    (mine : b ∈ c.range) : b ∉ d.range := by
  obtain ⟨low, high⟩ := mine
  rintro ⟨low', high'⟩
  rcases apart either with empty | empty | before | after <;> omega

end NvmClaim

def Deed.claim : Deed → MemClaim
  | .act a => a.claim
  | .nvmRead dst _ => ⟨true, dst, 1⟩
  | .nvmWrite src _ => ⟨false, src, 1⟩

def Deed.nvm : Deed → NvmClaim
  | .act _ => .none
  | .nvmRead _ block => ⟨false, block, 1⟩
  | .nvmWrite _ block => ⟨true, block, 1⟩

def Deed.InSegment (P : Nat) (idx : SegIdx) : Deed → Prop
  | .act a => a.InSegment P idx
  | .nvmRead _ _ | .nvmWrite _ _ => True

/-- What a deed may touch besides what it claims: a count and an access to the NVM region,
nothing. -/
def Deed.territory (P : Nat) (idx : SegIdx) : Deed → Set Loc
  | .act (.addRet _ _) | .act (.nvmWriteBlockCompleted _) | .nvmRead _ _ | .nvmWrite _ _ => ∅
  | .act _ => nvmTerritory P idx

namespace Chore

def claim : Chore → MemClaim
  | .stage task | .move task => ssdClaim task
  | .count _ => ⟨false, 0, 0⟩
  | .deed d => d.claim

def nvm : Chore → NvmClaim
  | .stage _ | .move _ | .count _ => .none
  | .deed d => d.nvm

/-- The chore stays in the segment's part of the buffer and of the SSD. -/
def InSegment (P : Nat) (idx : SegIdx) : Chore → Prop
  | .stage task | .move task => InStripe idx task
  | .count _ => True
  | .deed d => d.InSegment P idx

/-- What a chore may touch besides what it claims. -/
def territory (P : Nat) (idx : SegIdx) : Chore → Set Loc
  | .stage _ | .move _ => ssdTerritory idx
  | .count _ => ∅
  | .deed d => d.territory P idx

def reads (P : Nat) (idx : SegIdx) (x : Chore) : Set Spot :=
  onLocs (x.territory P idx ∪ x.claim.range) ∪ onBlocks x.nvm.range

def writes (P : Nat) (idx : SegIdx) (x : Chore) : Set Spot :=
  onLocs (x.territory P idx ∪ x.claim.written) ∪ onBlocks x.nvm.written

/-- Neither chore fills memory or writes NVM blocks of the other. -/
def Apart (x y : Chore) : Prop := x.claim.Apart y.claim ∧ x.nvm.Apart y.nvm

end Chore

/-! ## Footprints -/

section

variable {P : Nat} {idx : SegIdx} {task : IoTask}

theorem bounded_move (stripe : InStripe idx task) :
    Bounded (ssdTerritory idx) (ssdClaim task) fun m => m.ssdTaskMove idx task := by
  unfold Machine.ssdTaskMove
  by_cases read : task.opcode &&& (MIX_READ ||| MIX_WRITE) = MIX_READ
  · simp only [if_pos read]
    apply bounded_of_touches (touches_ssdReadCopy task.buf task.len task.offset)
    · exact fun l inside => .inl (stripe.dstRange inside)
    · exact fun l inside => .inr ⟨decide_eq_true read, inside⟩
  · by_cases write : task.opcode &&& (MIX_READ ||| MIX_WRITE) = MIX_WRITE
    · simp only [if_neg read, if_pos write]
      apply bounded_of_touches (touches_ssdWriteFlush task.len task.offset idx)
      · exact fun l inside => .inl (stripe.srcRange inside)
      · exact fun l inside => .inl (stripe.ssdRange inside)
    · simp only [if_neg read, if_neg write]
      apply bounded_id

theorem touches_count (task : IoTask) :
    Touches machineView (fun m => m.ssdTaskCount task) ∅ ∅ := by
  unfold Machine.ssdTaskCount
  by_cases read : task.opcode &&& (MIX_READ ||| MIX_WRITE) = MIX_READ
  · simp only [if_pos read]
    exact touches_addRet task.ret task.len
  · by_cases write : task.opcode &&& (MIX_READ ||| MIX_WRITE) = MIX_WRITE
    · simp only [if_neg read, if_pos write]
      exact touches_ssdWriteBlockCompleted task.len
    · simp only [if_neg read, if_neg write]
      exact Touches.id

/-- What an operation on the machine touches, with no claim on the NVM region. -/
theorem touches_of_bounded {T : Set Loc} {claim : MemClaim} {f : Machine → Machine}
    (bounded : Bounded T claim f) :
    Touches storageView (Storage.onMachine f)
      (onLocs (T ∪ claim.range) ∪ onBlocks NvmClaim.none.range)
      (onLocs (T ∪ claim.written) ∪ onBlocks NvmClaim.none.written) := by
  have nothing : ∀ S : Set Nat, S ⊆ NvmClaim.none.range → onBlocks S = ∅ := by
    intro S empty
    refine Set.eq_empty_of_forall_notMem ?_
    rintro p ⟨b, inside, -⟩
    obtain ⟨-, high⟩ := empty inside
    exact Nat.not_lt_zero b high
  rw [nothing _ (Set.Subset.refl _), nothing _ fun b inside => inside.2, Set.union_empty,
    Set.union_empty]
  exact touches_onMachine bounded

theorem touches_nvmRead (P : Nat) (idx : SegIdx) (dst block : Nat) :
    Touches storageView (Chore.act (idx, .deed (.nvmRead dst block)))
      (Chore.reads P idx (.deed (.nvmRead dst block)))
      (Chore.writes P idx (.deed (.nvmRead dst block))) where
  frame := by
    intro d p outside
    cases p with
    | region b => rfl
    | machine l =>
        cases l with
        | mem a =>
            change d.m.mem.storeBlocks dst 1 (fun _ => d.region block) a = d.m.mem a
            apply Mem.storeBlocks_outside
            intro inside
            exact outside (.inl ⟨_, .inr ⟨rfl, a, rfl, inside.1, inside.2⟩, rfl⟩)
        | perBlockNum | segment idx | data b | record b | ssd b | memalignSrc k | memalignDst k
        | migrateBuf t => rfl
  depends := by
    rintro d e same p (⟨l, inside, rfl⟩ | ⟨b, ⟨write, -⟩, -⟩)
    · have block_eq : d.region block = e.region block :=
        same (.region block) (.inr ⟨block, ⟨Nat.le_refl _, Nat.lt_succ_self _⟩, rfl⟩)
      rcases inside with nowhere | ⟨-, a, rfl, low, high⟩
      · cases nowhere
      · change dst ≤ a at low
        change a < dst + 1 * BLOCK_SIZE at high
        change d.m.mem.storeBlocks dst 1 (fun _ => d.region block) a =
          e.m.mem.storeBlocks dst 1 (fun _ => e.region block) a
        rw [Mem.storeBlocks_inside low high, Mem.storeBlocks_inside low high, block_eq]
    · cases write
  adds := ⟨0, fun d => (add_zero _).symm⟩

theorem touches_nvmWrite (P : Nat) (idx : SegIdx) (src block : Nat) :
    Touches storageView (Chore.act (idx, .deed (.nvmWrite src block)))
      (Chore.reads P idx (.deed (.nvmWrite src block)))
      (Chore.writes P idx (.deed (.nvmWrite src block))) where
  frame := by
    intro d p outside
    cases p with
    | machine l => rfl
    | region b =>
        apply Function.update_of_ne
        rintro rfl
        exact outside (.inr ⟨b, ⟨rfl, Nat.le_refl _, Nat.lt_succ_self _⟩, rfl⟩)
  depends := by
    rintro d e same p (⟨l, inside, rfl⟩ | ⟨b, ⟨-, low, high⟩, rfl⟩)
    · rcases inside with nowhere | ⟨write, -⟩
      · cases nowhere
      · cases write
    · have here : b = block := Nat.le_antisymm (Nat.le_of_lt_succ high) low
      have loaded : d.m.mem.load (src + 0 * BLOCK_SIZE) = e.m.mem.load (src + 0 * BLOCK_SIZE) :=
        load_congr Nat.one_pos fun l range => same (.machine l) (.inl ⟨l, .inr range, rfl⟩)
      rw [Nat.zero_mul, Nat.add_zero] at loaded
      change Function.update d.region block (d.m.mem.load src) b =
        Function.update e.region block (e.m.mem.load src) b
      rw [here, Function.update_self, Function.update_self, loaded]
  adds := ⟨0, fun d => (add_zero _).symm⟩

/-- An action has the claim of `bounded_perform`, and a count has no territory. -/
theorem bounded_act {a : Action} (inside : a.InSegment P idx) :
    Bounded ((Deed.act a).territory P idx) a.claim fun m => m.perform a := by
  cases a with
  | addRet ret n =>
      exact bounded_of_touches (touches_addRet ret n) (Set.empty_subset _) (Set.empty_subset _)
  | nvmWriteBlockCompleted n =>
      exact bounded_of_touches (touches_nvmWriteBlockCompleted n) (Set.empty_subset _)
        (Set.empty_subset _)
  | postTaskToSsd | readFromBuffer | writeToBuffer | bufferClear => exact bounded_perform inside

theorem Chore.touches {x : Chore} (inside : x.InSegment P idx) :
    Touches storageView (Chore.act (idx, x)) (x.reads P idx) (x.writes P idx) := by
  cases x with
  | stage task => exact touches_of_bounded (bounded_stage inside)
  | move task => exact touches_of_bounded (bounded_move inside)
  | count task =>
      exact touches_of_bounded (bounded_of_touches (touches_count task) (Set.empty_subset _)
        (Set.empty_subset _))
  | deed d =>
      cases d with
      | act a => exact touches_of_bounded (bounded_act inside)
      | nvmRead dst block => exact touches_nvmRead P idx dst block
      | nvmWrite src block => exact touches_nvmWrite P idx src block

/-! ## Chores that commute -/

theorem Deed.territory_subset (what : Deed) : what.territory P idx ⊆ nvmTerritory P idx := by
  cases what with
  | act a =>
      cases a with
      | addRet | nvmWriteBlockCompleted => exact Set.empty_subset _
      | postTaskToSsd | readFromBuffer | writeToBuffer | bufferClear => exact Set.Subset.refl _
  | nvmRead | nvmWrite => exact Set.empty_subset _

namespace Chore

variable {i j : SegIdx} {x y : Chore}

theorem writes_subset_reads : x.writes P i ⊆ x.reads P i := by
  rintro p (⟨l, inside | inside, rfl⟩ | ⟨b, inside, rfl⟩)
  · exact .inl ⟨l, .inl inside, rfl⟩
  · exact .inl ⟨l, .inr inside.2, rfl⟩
  · exact .inr ⟨b, inside.2, rfl⟩

theorem mem_not_territory (x : Chore) {a : Nat} : Loc.mem a ∉ x.territory P i := by
  cases x with
  | stage _ | move _ => exact mem_not_ssdTerritory
  | count _ => exact Set.notMem_empty _
  | deed what => exact fun mine => mem_not_nvmTerritory (what.territory_subset mine)

theorem range_not_territory (x : Chore) {claim : MemClaim} {l : Loc} (inside : l ∈ claim.range) :
    l ∉ x.territory P i := by
  obtain ⟨a, rfl, -⟩ := inside
  exact x.mem_not_territory

/-- What one chore writes another one on other territory does not use. -/
theorem writes_not_reads (territory : ∀ l ∈ x.territory P i, l ∉ y.territory P j)
    (apart : x.Apart y) {p : Spot} (mine : p ∈ x.writes P i) : p ∉ y.reads P j := by
  rcases mine with ⟨l, mine, rfl⟩ | ⟨b, ⟨write, mine⟩, rfl⟩
  · rintro (⟨k, theirs, same⟩ | ⟨b, -, ⟨⟩⟩)
    cases same
    rcases mine with mine | ⟨dst, mine⟩
    · rcases theirs with theirs | theirs
      · exact territory l mine theirs
      · exact x.range_not_territory theirs mine
    · rcases theirs with theirs | theirs
      · exact y.range_not_territory mine theirs
      · exact apart.1.disjoint (.inl dst) mine theirs
  · rintro (⟨k, -, ⟨⟩⟩ | ⟨c, theirs, same⟩)
    cases same
    exact apart.2.disjoint (.inl write) mine theirs

theorem Apart.symm (apart : x.Apart y) : y.Apart x := ⟨apart.1.symm, apart.2.symm⟩

theorem commute_of_territory (left : x.InSegment P i) (right : y.InSegment P j)
    (territory : ∀ l ∈ x.territory P i, l ∉ y.territory P j) (apart : x.Apart y) :
    Function.Commute (act (i, x)) (act (j, y)) := by
  have back : ∀ l ∈ y.territory P j, l ∉ x.territory P i := fun l theirs mine =>
    territory l mine theirs
  refine (touches left).commute (touches right) (fun p mine => ?_) fun p theirs => ?_
  · have unread := writes_not_reads territory apart mine
    exact ⟨unread, fun written => unread (writes_subset_reads written)⟩
  · exact writes_not_reads back apart.symm theirs

/-- **Chores of different stations commute.** -/
theorem commute (other : i ≠ j) (left : x.InSegment P i) (right : y.InSegment P j)
    (apart : x.Apart y) : Function.Commute (act (i, x)) (act (j, y)) := by
  refine commute_of_territory left right (fun l mine => ?_) apart
  cases x with
  | count _ => exact absurd mine (Set.notMem_empty l)
  | stage _ | move _ =>
      cases y with
      | count _ => exact Set.notMem_empty l
      | stage _ | move _ => exact ssdTerritory_disjoint other mine
      | deed what => exact fun theirs => nvm_ssd_disjoint (what.territory_subset theirs) mine
  | deed what =>
      have mine := what.territory_subset mine
      cases y with
      | count _ => exact Set.notMem_empty l
      | stage _ | move _ => exact nvm_ssd_disjoint mine
      | deed what' =>
          exact fun theirs => nvmTerritory_disjoint other mine (what'.territory_subset theirs)

/-- **A deed of the nvm_worker commutes with the ssd_worker's chores.** -/
theorem commute_deed {d : Deed} (notDeed : ∀ e, x ≠ .deed e) (left : x.InSegment P i)
    (right : d.InSegment P i) (apart : x.claim.Apart d.claim) :
    Function.Commute (act (i, x)) (act (i, .deed d)) := by
  have unclaimed : x.nvm = .none := by
    cases x with
    | stage _ | move _ | count _ => rfl
    | deed e => exact absurd rfl (notDeed e)
  refine commute_of_territory (y := .deed d) left right (fun l mine => ?_)
    ⟨apart, unclaimed ▸ NvmClaim.apart_none.symm⟩
  cases x with
  | stage _ | move _ => exact fun theirs => nvm_ssd_disjoint (d.territory_subset theirs) mine
  | count _ => exact absurd mine (Set.notMem_empty l)
  | deed e => exact absurd rfl (notDeed e)

/-- No chore touches the index. -/
theorem act_md (x : SegIdx × Chore) (d : Storage) : (act x d).m.md = d.m.md := by
  obtain ⟨idx, x⟩ := x
  cases x with
  | stage task => exact Work.act_md (idx, .stage task) d.m
  | move task =>
      simp only [act, Storage.onMachine, Machine.ssdTaskMove]
      split
      · rfl
      · split <;> rfl
  | count task =>
      simp only [act, Storage.onMachine, Machine.ssdTaskCount]
      split
      · rfl
      · split <;> rfl
  | deed what =>
      cases what with
      | act a => exact Work.act_md (idx, .action a) d.m
      | nvmRead | nvmWrite => rfl

end Chore

end

end Mixdk
