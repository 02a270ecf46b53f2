/-
# EndToEnd.Content -- the content of a block

A block's content is the buffered copy when the index has one, else the SSD's
(`Machine.blockContent`).  A task executed synchronously brings a read the contents of
its blocks (`syncTask_read`), and replaces the contents of a written range by the
caller's blocks (`syncTask_write`) -- as long as the write does not run into one of the
places where the code loses a block (`WriteSafe`).  A migration of segment 0 leaves
every content as it is (`migrated_content`).
-/
import Mixdk.Index.SmallWrite
import Mixdk.Async.Equivalence
import Mixdk.EndToEnd.Elsewhere

namespace Mixdk

open scoped List
open Transition Lanes

set_option autoImplicit false

/-- The block a reader of the index finds. -/
def Machine.blockContent (m : Machine) (b : Nat) : Block :=
  match (m.md.segments (segmentOf b)).hash.find? b with
  | some v => m.nvm.data (m.md.bufferBlock (segmentOf b) v)
  | none => m.ssd b

theorem Machine.blockContent_of_some {m : Machine} {b v : Nat}
    (found : (m.md.segments (segmentOf b)).hash.find? b = some v) :
    m.blockContent b = m.nvm.data (m.md.bufferBlock (segmentOf b) v) := by
  rw [blockContent, found]

theorem Machine.blockContent_of_none {m : Machine} {b : Nat}
    (absent : (m.md.segments (segmentOf b)).hash.find? b = none) :
    m.blockContent b = m.ssd b := by
  rw [blockContent, absent]

/-- A block keeps its content when it keeps its entry and its copies. -/
theorem Machine.blockContent_congr {m m' : Machine} {b : Nat}
    (size : m'.md.perBlockNum = m.md.perBlockNum)
    (entry : (m'.md.segments (segmentOf b)).hash.find? b =
      (m.md.segments (segmentOf b)).hash.find? b)
    (data : m'.nvm.data = m.nvm.data) (ssd : m'.ssd b = m.ssd b) :
    m'.blockContent b = m.blockContent b := by
  simp only [blockContent, entry, data, ssd, Metadata.bufferBlock_congr size]

/-- Each segment's table has blocks of the segment alone. -/
def Keyed (md : Metadata) : Prop := ∀ idx, ∀ kv ∈ (md.segments idx).hash.entries, segmentOf kv.1 = idx

/-! ## Memory -/

theorem Mem.load_storeBlocks (m : Mem) (p : Nat) (src : Nat → Block) {n j : Nat} (inside : j < n) :
    (m.storeBlocks p n src).load (p + j * BLOCK_SIZE) = src j := by
  funext i
  have small := i.isLt
  have bound : j * BLOCK_SIZE + BLOCK_SIZE ≤ n * BLOCK_SIZE := by
    rw [← Nat.succ_mul]
    exact Nat.mul_le_mul_right _ inside
  have shift : p + j * BLOCK_SIZE + i - p = j * BLOCK_SIZE + i := by omega
  have block : (j * BLOCK_SIZE + i) / BLOCK_SIZE = j := by
    rw [Nat.mul_comm, Nat.mul_add_div (by decide), Nat.div_eq_of_lt small, Nat.add_zero]
  have byte : (j * BLOCK_SIZE + i) % BLOCK_SIZE = i := by
    rw [Nat.mul_comm, Nat.mul_add_mod, Nat.mod_eq_of_lt small]
  change m.storeBlocks p n src (p + j * BLOCK_SIZE + i) = src j i
  rw [Mem.storeBlocks_inside (by omega) (by omega)]
  simp only [shift, block, byte]

/-- The memory outside `n` blocks at address `p` is the same. -/
def SameMemOutside (m m' : Machine) (p n : Nat) : Prop :=
  ∀ a, ¬ (p ≤ a ∧ a < p + n * BLOCK_SIZE) → m'.mem a = m.mem a

theorem SameMemOutside.blocksAt {m m' : Machine} {p n q j : Nat} (same : SameMemOutside m m' p n)
    (apart : q + j * BLOCK_SIZE + BLOCK_SIZE ≤ p ∨ p + n * BLOCK_SIZE ≤ q + j * BLOCK_SIZE) :
    m'.blocksAt q j = m.blocksAt q j := by
  funext i
  have small := i.isLt
  apply same
  omega

/-! ## Reads -/

section

variable {m m' : Machine} {idx : SegIdx} {task : IoTask}

theorem segmentOf_block {task : IoTask} (stripe : InStripe idx task) {i : Nat}
    (inside : i < task.len) : segmentOf (task.offset + i) = idx :=
  stripe.of_block (Nat.le_add_right _ _) (Nat.add_lt_add_left inside _)

theorem bufferBlockTest_some (all : AllIndexed m.md) {b : Nat} (key : b < NO_ENTRY)
    (mine : segmentOf b = idx) (found : mixBufferBlockTest m.md b idx ≠ -1) :
    m.nvm.data (m.md.bufferBlock idx (ofInt32 (mixBufferBlockTest m.md b idx))) =
      m.blockContent b := by
  rw [(all idx).bufferBlockTest, u32_key key] at found ⊢
  rw [Machine.blockContent, mine]
  cases look : (m.md.segments idx).hash.find? b with
  | none =>
      rw [look] at found
      exact absurd rfl found
  | some v =>
      have small := ((all idx).slot_small ((all idx).find?_eq_some_iff.1 look)).2
      simp only at small ⊢
      rw [ofInt32_of_lt (by omega)]

theorem bufferBlockTest_none (all : AllIndexed m.md) {b : Nat} (key : b < NO_ENTRY)
    (mine : segmentOf b = idx) (absent : mixBufferBlockTest m.md b idx = -1) :
    m.ssd b = m.blockContent b := by
  rw [(all idx).test_eq_neg_one_iff, u32_key key] at absent
  rw [Machine.blockContent, mine, absent]

/-- What a read leaves alone. -/
structure ReadOnly (m m' : Machine) : Prop where
  md : m'.md = m.md
  nvm : m'.nvm = m.nvm
  ssd : m'.ssd = m.ssd

theorem ReadOnly.refl (m : Machine) : ReadOnly m m := ⟨rfl, rfl, rfl⟩

theorem ReadOnly.trans {m'' : Machine} (second : ReadOnly m' m'') (first : ReadOnly m m') :
    ReadOnly m m'' :=
  ⟨second.md.trans first.md, second.nvm.trans first.nvm, second.ssd.trans first.ssd⟩

theorem ReadOnly.blockContent (same : ReadOnly m m') : m'.blockContent = m.blockContent := by
  funext b
  rw [Machine.blockContent, Machine.blockContent, same.md, same.nvm, same.ssd]

/-- The operations of one action. -/
theorem runAll_works_cons (idx : SegIdx) (a : Action) (rest : List Action) (m : Machine) :
    runAll Work.act m ((works (a :: rest)).map (Prod.mk idx)) =
      runAll Work.act (m.syncAction idx a) ((works rest).map (Prod.mk idx)) := by
  rw [← syncActions_eq, ← syncActions_eq, List.foldl_cons]

/-- The ssd_worker's read of a part of a task. -/
theorem ssdWorkerTask_readPart (m : Machine) (idx : SegIdx) (task : IoTask) (i len : Nat) :
    m.ssdWorkerTask idx (readPart task i len) =
      (m.mixSsdRead (task.buf + BLOCK_SIZE * i) len (task.offset + i)).addRet task.ret len := by
  have op : MIX_READ &&& (MIX_READ ||| MIX_WRITE) = MIX_READ := by decide
  simp only [Machine.ssdWorkerTask, readPart, op, if_true]

/-- `mix_ssd_read` brings the SSD's blocks. -/
theorem mixSsdRead_mem (m : Machine) (dst len offset : Nat) :
    (m.mixSsdRead dst len offset).mem = m.mem.storeBlocks dst len fun j => m.ssd (offset + j) := by
  funext a
  change m.mem.storeBlocks dst len (fun j => setBlocks m.memalignDst (stagingBlock (readSlot offset))
    len (fun j => m.ssd (offset + j)) (stagingBlock (readSlot offset) + j)) a = _
  by_cases inside : dst ≤ a ∧ a < dst + len * BLOCK_SIZE
  · have block := div_block_lt inside.2 inside.1
    rw [Mem.storeBlocks_inside inside.1 inside.2, Mem.storeBlocks_inside inside.1 inside.2,
      setBlocks_inside (Nat.le_add_right _ _) (Nat.add_lt_add_left block _),
      Nat.add_sub_cancel_left]
  · rw [Mem.storeBlocks_outside inside, Mem.storeBlocks_outside inside]

/-- The blocks of a read come with their contents, and nothing else changes. -/
structure Delivered (task : IoTask) (i n : Nat) (m m' : Machine) : Prop where
  readOnly : ReadOnly m m'
  blocks : ∀ k, i ≤ k → k < n → m'.blocksAt task.buf k = m.blockContent (task.offset + k)
  others : SameMemOutside m m' (task.buf + i * BLOCK_SIZE) (n - i)

theorem Delivered.before {n i j : Nat} {m'' : Machine} (upto : i ≤ j) (inside : j ≤ n)
    (first : Delivered task i j m m') (later : Delivered task j n m' m'') :
    Delivered task i n m m'' := by
  have split : n - i = (j - i) + (n - j) := by omega
  have at_ : j * BLOCK_SIZE = i * BLOCK_SIZE + (j - i) * BLOCK_SIZE := by
    rw [← Nat.add_mul]
    congr 1
    omega
  refine ⟨later.readOnly.trans first.readOnly, ?_, ?_⟩
  · intro k low high
    by_cases early : k < j
    · rw [← first.blocks k low early]
      apply later.others.blocksAt
      left
      have bound := Nat.mul_le_mul_right BLOCK_SIZE (Nat.succ_le_of_lt early)
      rw [Nat.succ_mul] at bound
      omega
    · rw [later.blocks k (by omega) high, first.readOnly.blockContent]
  · intro a outside
    rw [split, Nat.add_mul] at outside
    rw [later.others a (by omega), first.others a (by omega)]

theorem Delivers.delivered (all : AllIndexed m.md) (inRange : InRange task)
    (stripe : InStripe idx task) {n i : Nat} {actions : List Action} (upto : n ≤ task.len)
    (delivers : Delivers m.md task idx n i actions) :
    Delivered task i n m (runAll Work.act m ((works actions).map (Prod.mk idx))) := by
  have key : ∀ k < n, task.offset + k < NO_ENTRY := by
    intro k inside
    have := inRange.2
    omega
  generalize same : m.md = md at delivers
  induction delivers generalizing m with
  | done => exact ⟨.refl m, fun k low high => absurd high (by omega), fun _ _ => rfl⟩
  | @buffer i rest inside found later ih =>
      subst same
      rw [runAll_works_cons]
      refine Delivered.before (Nat.le_succ i) inside ?_ (ih ?_ ?_)
      · refine ⟨⟨rfl, rfl, rfl⟩, ?_, ?_⟩
        · intro k low high
          obtain rfl : k = i := by omega
          have content := bufferBlockTest_some all (key k inside)
            (segmentOf_block stripe (by omega)) found
          rw [← content]
          have loaded := Mem.load_storeBlocks m.mem (task.buf + k * BLOCK_SIZE)
            (fun _ => m.nvm.data (m.md.bufferBlock idx
              (ofInt32 (mixBufferBlockTest m.md (task.offset + k) idx)))) Nat.one_pos
          rw [Nat.zero_mul, Nat.add_zero] at loaded
          exact loaded
        · intro a outside
          rw [Nat.succ_sub (Nat.le_refl i), Nat.sub_self] at outside
          apply (touches_readFromBuffer (task.buf + i * BLOCK_SIZE) _).frame m (.mem a)
          rintro ⟨b, same, low, high⟩
          cases same
          exact outside ⟨low, high⟩
      · exact all
      · rfl
  | @ssd i len rest some_block inside absent later ih =>
      subst same
      rw [runAll_works_cons]
      have mem : (m.ssdWorkerTask idx (readPart task i len)).mem =
          m.mem.storeBlocks (task.buf + i * BLOCK_SIZE) len fun j => m.ssd (task.offset + i + j) := by
        rw [ssdWorkerTask_readPart, Nat.mul_comm i]
        exact mixSsdRead_mem m _ len _
      have readOnly : ReadOnly m (m.ssdWorkerTask idx (readPart task i len)) := by
        rw [ssdWorkerTask_readPart]
        exact ⟨rfl, rfl, rfl⟩
      refine Delivered.before (Nat.le_add_right i len) inside ⟨readOnly, ?_, ?_⟩ (ih ?_ readOnly.md)
      · intro k low high
        have content := bufferBlockTest_none all (key k (by omega))
          (segmentOf_block stripe (by omega)) (absent k low high)
        rw [← content]
        have within : k - i < len := by omega
        have loaded := Mem.load_storeBlocks m.mem (task.buf + i * BLOCK_SIZE)
          (fun j => m.ssd (task.offset + i + j)) within
        have address : task.buf + i * BLOCK_SIZE + (k - i) * BLOCK_SIZE =
            task.buf + k * BLOCK_SIZE := by
          rw [Nat.add_assoc, ← Nat.add_mul]
          congr 2
          omega
        have block : task.offset + i + (k - i) = task.offset + k := by omega
        rw [address] at loaded
        simp only [block] at loaded
        change (m.ssdWorkerTask idx (readPart task i len)).mem.load _ = _
        rw [mem]
        exact loaded
      · intro a outside
        rw [Nat.add_sub_cancel_left] at outside
        rw [mem]
        exact Mem.storeBlocks_outside outside
      · rw [readOnly.md]
        exact all

/-- **A read brings the contents of its blocks, and changes nothing else.** -/
theorem syncTask_read (all : AllIndexed m.md) (inRange : InRange task)
    (stripe : InStripe idx task) (read : opCode task = MIX_READ)
    (ran : m.syncTask (idx, task) = some m') : Delivered task 0 task.len m m' := by
  obtain ⟨md, actions, ret, done, rfl⟩ := syncTask_eq_some.1 ran
  simp only [nvmWorkerSsdTask, if_pos read] at done
  injection done with same eq
  subst same eq
  have list : works ((redirectRead m.md task idx).1 ++
      [.addRet task.ret (redirectRead m.md task idx).2]) =
      works (redirectRead m.md task idx).1 ++
        [.action (.addRet task.ret (redirectRead m.md task idx).2)] := by
    simp [works, Action.works]
  have delivers : Delivers m.md task idx task.len 0 (redirectRead m.md task idx).1 :=
    redirectRead_delivers inRange
  have delivered := delivers.delivered all inRange stripe (Nat.le_refl _)
  rw [list, List.map_append, runAll_append]
  exact ⟨⟨delivered.readOnly.md, delivered.readOnly.nvm, delivered.readOnly.ssd⟩,
    delivered.blocks, delivered.others⟩

/-! ## Writes -/

/-- The buffered blocks of the range come first: `mix_clear_block` stops at the first block
that is not buffered. -/
def ClearsWhole (md : Metadata) (task : IoTask) (idx : SegIdx) : Prop :=
  ∀ i j, i ≤ j → j < task.len → mixBufferBlockTest md (task.offset + j) idx ≠ -1 →
    mixBufferBlockTest md (task.offset + i) idx ≠ -1

instance (md : Metadata) (task : IoTask) (idx : SegIdx) : Decidable (ClearsWhole md task idx) :=
  decidable_of_iff
    (∀ j < task.len, mixBufferBlockTest md (task.offset + j) idx ≠ -1 → ∀ i < j + 1,
      mixBufferBlockTest md (task.offset + i) idx ≠ -1)
    ⟨fun h i j le inside found => h j inside found i (by omega),
      fun h j inside found i le => h i j (by omega) inside found⟩

/-- When a write loses none of its blocks. -/
def WriteSafe (md : Metadata) (task : IoTask) (idx : SegIdx) : Prop :=
  if task.len ≤ WRITE_THRESHOLD then SlotSafe md idx task.offset else ClearsWhole md task idx

instance (md : Metadata) (task : IoTask) (idx : SegIdx) : Decidable (WriteSafe md task idx) := by
  unfold WriteSafe SlotSafe
  infer_instance

/-- A write has replaced the contents of its blocks. -/
structure Written (task : IoTask) (m m' : Machine) : Prop where
  mem : m'.mem = m.mem
  content : m'.blockContent = setBlocks m.blockContent task.offset task.len (m.blocksAt task.buf)
  keyed : Keyed m'.md

/-- A small write changes the entry of its own block at most. -/
theorem SmallWrite.find?_other {md md' : Metadata} {v ret : Nat} (all : AllIndexed md)
    (inRange : InRange task)
    (outcome : SmallWrite md task idx (.done md' (bufferWrite md task idx v) ret)) {j : SegIdx}
    {k : Nat} (other : j ≠ idx ∨ k ≠ task.offset) :
    (md'.segments j).hash.find? k = (md.segments j).hash.find? k := by
  by_cases same : j = idx
  · subst same
    have apart : k ≠ task.offset := other.resolve_left fun ne => ne rfl
    rcases outcome.done_cases with ⟨-, rfl⟩ | ⟨absent, -, first, ⟨-, rfl⟩ | ⟨-, rfl⟩⟩
    · rfl
    · rw [Metadata.setSegment_self]
      apply Option.ext
      intro w
      rw [(all j).find?_entered absent inRange.key first]
      exact or_iff_right fun here => apart here.1
    · rw [Metadata.setSegment_self]
      rfl
  · rcases outcome.done_cases with ⟨-, rfl⟩ | ⟨-, -, -, ⟨-, rfl⟩ | ⟨-, rfl⟩⟩
    · rfl
    · rw [Metadata.setSegment_of_ne md _ same]
    · rw [Metadata.setSegment_of_ne md _ same]

theorem SmallWrite.keyed {md md' : Metadata} {v ret : Nat} (all : AllIndexed md)
    (keyed : Keyed md) (inRange : InRange task) (stripe : InStripe idx task)
    (outcome : SmallWrite md task idx (.done md' (bufferWrite md task idx v) ret)) :
    Keyed md' := by
  intro j kv entry
  have all' : AllIndexed md' := (outcome.allIndexed all inRange).1
  by_cases other : j ≠ idx ∨ kv.1 ≠ task.offset
  · have found : (md'.segments j).hash.find? kv.1 = some kv.2 := (all' j).find?_eq_some_iff.2 entry
    rw [outcome.find?_other all inRange other] at found
    exact keyed j _ ((all j).find?_eq_some_iff.1 found)
  · rw [not_or, not_not, not_not] at other
    rw [other.1, other.2]
    exact stripe.segment

/-- A block entered in the slot it is written to has the content written. -/
theorem SmallWrite.content {v ret : Nat} (all : AllIndexed m.md) (inRange : InRange task)
    (stripe : InStripe idx task) (single : task.len = 1)
    (outcome : SmallWrite m.md task idx (.done m'.md (bufferWrite m.md task idx v) ret))
    (some_ : (m.md.segments idx).hash.find? task.offset ≠ none ∨
      AllocSafe (m.md.segments idx).bitmap idx)
    (nvm : m'.nvm = mixBufferWrite m.nvm (m.mem.load task.buf) task.offset
      (m.md.bufferBlock idx v) task.opcode) (ssd : m'.ssd = m.ssd) :
    m'.blockContent = setBlocks m.blockContent task.offset task.len (m.blocksAt task.buf) := by
  have entered := outcome.entered all inRange some_
  have inside := outcome.slot_lt all
  have size := (outcome.allIndexed all inRange).2
  funext b
  by_cases here : b = task.offset
  · subst here
    rw [setBlocks_inside (Nat.le_refl _) (by omega), Nat.sub_self, Machine.blockContent,
      stripe.segment, entered.found]
    simp only [nvm, mixBufferWrite, Metadata.bufferBlock_congr size, Function.update_self,
      Machine.blocksAt, Nat.zero_mul, Nat.add_zero]
  · rw [setBlocks_outside (by omega), Machine.blockContent, Machine.blockContent,
      outcome.find?_other all inRange (.inr here)]
    cases look : (m.md.segments (segmentOf b)).hash.find? b with
    | none => simp only [ssd]
    | some w =>
        have slots := (entered.kept (segmentOf b) b w (.inr here) look).2
        have below := ((all _).slot_small ((all _).find?_eq_some_iff.1 look)).1
        have blocks : m.md.bufferBlock (segmentOf b) w ≠ m.md.bufferBlock idx v := by
          intro same
          obtain ⟨sameSegment, sameSlot⟩ := bufferBlock_inj below inside same
          exact slots.elim (fun ne => ne sameSegment) fun ne => ne sameSlot
        simp only [nvm, mixBufferWrite, Metadata.bufferBlock_congr size,
          Function.update_of_ne blocks]

/-- What a small write does, brought to effect. -/
theorem runAll_smallWrite {md' : Metadata} {actions : List Action} {result : WriteResult}
    {ret : Nat} (outcome : SmallWrite m.md task idx result)
    (done : result.counted = .done md' actions ret)
    (ran : m' = runAll Work.act (m.setMd md') ((works actions).map (Prod.mk idx))) :
    m'.md = md' ∧ m'.mem = m.mem ∧ m'.ssd = m.ssd ∧ ∃ v,
      SmallWrite m.md task idx (.done md' (bufferWrite m.md task idx v) task.len) ∧
      m'.nvm = mixBufferWrite m.nvm (m.mem.load task.buf) task.offset
        (m.md.bufferBlock idx v) task.opcode := by
  have whole := outcome
  cases outcome with
  | full | spins => cases done
  | @overwrite v | @enter v | @leak v =>
      injection done with md_eq actions_eq
      subst md_eq actions_eq ran
      exact ⟨rfl, rfl, rfl, v, whole, rfl⟩

theorem smallWrite_written {md' : Metadata} {actions : List Action} {result : WriteResult}
    {ret : Nat} (all : AllIndexed m.md) (keyed : Keyed m.md) (inRange : InRange task)
    (stripe : InStripe idx task) (small : task.len ≤ WRITE_THRESHOLD)
    (outcome : SmallWrite m.md task idx result)
    (some_ : (m.md.segments idx).hash.find? task.offset ≠ none ∨
      AllocSafe (m.md.segments idx).bitmap idx)
    (done : result.counted = .done md' actions ret)
    (ran : m' = runAll Work.act (m.setMd md') ((works actions).map (Prod.mk idx))) :
    Written task m m' := by
  obtain ⟨rfl, mem, ssd, v, written, nvm⟩ := runAll_smallWrite outcome done ran
  have single : task.len = 1 := by
    have := inRange.1
    simp only [WRITE_THRESHOLD] at small
    omega
  exact ⟨mem, written.content all inRange stripe single some_ nvm ssd,
    written.keyed all keyed inRange stripe⟩

/-! ## Large writes -/

theorem Cleared.find?_outside {md md' : Metadata} {offset n : Nat} {removed : List MixKv}
    (all : AllIndexed md) (cleared : Cleared idx offset n md md' removed) {j : SegIdx} {k : Nat}
    (outside : ¬ (offset ≤ k ∧ k < offset + n)) :
    (md'.segments j).hash.find? k = (md.segments j).hash.find? k := by
  have all' := all.cleared cleared
  by_cases same : j = idx
  · subst same
    apply Option.ext
    intro w
    rw [(all' j).find?_eq_some_iff, (all j).find?_eq_some_iff, cleared.entries.mem_iff,
      List.mem_append]
    refine (or_iff_right ?_).symm
    intro out
    have key := List.mem_map_of_mem (f := Prod.fst) out
    rw [cleared.keys, List.mem_range'_1] at key
    have := cleared.length_le
    omega
  · rw [cleared.segments j same]

/-- A write whose buffered blocks come first clears all of them. -/
theorem Cleared.find?_inside {md md' : Metadata} {removed : List MixKv} (all : AllIndexed md)
    (inRange : InRange task) (whole : ClearsWhole md task idx)
    (cleared : Cleared idx task.offset task.len md md' removed) {i : Nat} (inside : i < task.len) :
    (md'.segments idx).hash.find? (task.offset + i) = none := by
  have bound := inRange.2
  have all' := all.cleared cleared
  have keys := (cleared.entries.map Prod.fst).nodup_iff.1 (all idx).keys
  rw [List.map_append] at keys
  by_cases early : i < removed.length
  · -- the block was taken out, and it was there once
    rw [(all' idx).sound.find?_eq_none_iff (all' idx).keys]
    intro v entry
    have out : task.offset + i ∈ removed.map Prod.fst := by
      rw [cleared.keys, List.mem_range'_1]
      omega
    exact List.disjoint_of_nodup_append keys out (List.mem_map_of_mem (f := Prod.fst) entry)
  · -- the loop stopped at a block that is not buffered, so neither is this one
    have short : removed.length < task.len := by omega
    have absent : ∀ k, (md'.segments idx).hash.find? k = none →
        k ∉ removed.map Prod.fst → (md.segments idx).hash.find? k = none := by
      intro k none_ notOut
      rw [(all' idx).sound.find?_eq_none_iff (all' idx).keys] at none_
      rw [(all idx).sound.find?_eq_none_iff (all idx).keys]
      intro v entry
      rcases List.mem_append.1 (cleared.entries.mem_iff.1 entry) with out | still
      · exact notOut (List.mem_map_of_mem (f := Prod.fst) out)
      · exact none_ v still
    have stop := absent _ (cleared.stops short) (by rw [cleared.keys, List.mem_range'_1]; omega)
    have test : ∀ k < task.len, mixBufferBlockTest md (task.offset + k) idx = -1 ↔
        (md.segments idx).hash.find? (task.offset + k) = none := by
      intro k below
      rw [(all idx).test_eq_neg_one_iff, u32_key (by omega)]
    have missing : mixBufferBlockTest md (task.offset + i) idx = -1 := by
      by_contra buffered
      exact whole removed.length i (by omega) inside buffered ((test _ short).2 stop)
    have before := (test i inside).1 missing
    rw [(all idx).sound.find?_eq_none_iff (all idx).keys] at before
    rw [(all' idx).sound.find?_eq_none_iff (all' idx).keys]
    intro v entry
    exact before v (cleared.entries.mem_iff.2 (List.mem_append_right _ entry))

theorem Cleared.keyed {md md' : Metadata} {offset n : Nat} {removed : List MixKv}
    (keyed : Keyed md) (cleared : Cleared idx offset n md md' removed) : Keyed md' := by
  intro j kv entry
  by_cases same : j = idx
  · subst same
    exact keyed j kv (cleared.entries.mem_iff.2 (List.mem_append_right _ entry))
  · rw [cleared.segments j same] at entry
    exact keyed j kv entry

/-- Clearing records leaves everything else alone. -/
theorem runAll_bufferClears (idx : SegIdx) (blocks : List Nat) (m : Machine) :
    let m' := runAll Work.act m ((works (blocks.map .bufferClear)).map (Prod.mk idx))
    m'.nvm.data = m.nvm.data ∧ m'.ssd = m.ssd ∧ m'.mem = m.mem := by
  induction blocks generalizing m with
  | nil => exact ⟨rfl, rfl, rfl⟩
  | cons b blocks ih =>
      rw [List.map_cons, runAll_works_cons]
      exact ih _

/-- `mix_ssd_write` brings the caller's blocks to the SSD. -/
theorem mixSsdWrite_ssd (m : Machine) (src : Nat → Block) (len offset idx : Nat) :
    (m.mixSsdWrite src len offset idx).ssd = setBlocks m.ssd offset len src := by
  funext b
  change setBlocks m.ssd offset len (fun j => setBlocks m.memalignSrc (stagingBlock idx) len src
    (stagingBlock idx + j)) b = _
  by_cases inside : offset ≤ b ∧ b < offset + len
  · rw [setBlocks_inside inside.1 inside.2, setBlocks_inside inside.1 inside.2,
      setBlocks_inside (Nat.le_add_right _ _) (by omega), Nat.add_sub_cancel_left]
  · rw [setBlocks_outside inside, setBlocks_outside inside]

theorem ssdWorkerTask_write {task : IoTask} (write : opCode task = MIX_WRITE) (m : Machine)
    (idx : SegIdx) : (m.ssdWorkerTask idx task).nvm = m.nvm ∧
      (m.ssdWorkerTask idx task).mem = m.mem ∧
      (m.ssdWorkerTask idx task).ssd =
        setBlocks m.ssd task.offset task.len (m.blocksAt task.buf) := by
  have notRead : ¬ MIX_WRITE = MIX_READ := by decide
  simp only [Machine.ssdWorkerTask, write_op write, if_neg notRead, if_true]
  exact ⟨rfl, rfl, mixSsdWrite_ssd ..⟩

theorem largeWrite_written (all : AllIndexed m.md) (keyed : Keyed m.md) (inRange : InRange task)
    (stripe : InStripe idx task) (write : opCode task = MIX_WRITE)
    (whole : ClearsWhole m.md task idx) {md' : Metadata} {removed : List MixKv} {blocks : List Nat}
    {n : Nat} (cleared : Cleared idx task.offset task.len m.md md' removed)
    (ran : m' = runAll Work.act (m.setMd md') ((works (.postTaskToSsd task ::
      (blocks.map .bufferClear ++ [.nvmWriteBlockCompleted n]))).map (Prod.mk idx))) :
    Written task m m' := by
  obtain ⟨nvm, mem, ssd⟩ := ssdWorkerTask_write write (m.setMd md') idx
  have list : works (blocks.map .bufferClear ++ [.nvmWriteBlockCompleted n]) =
      works (blocks.map .bufferClear) ++ [.action (.nvmWriteBlockCompleted n)] := by
    simp [works, Action.works]
  rw [runAll_works_cons, list, List.map_append, runAll_append] at ran
  obtain ⟨data, ssd', mem'⟩ := runAll_bufferClears idx blocks
    ((m.setMd md').syncAction idx (.postTaskToSsd task))
  have md : m'.md = md' := by
    rw [ran, runAll_md, runAll_md]
    exact ssdWorkerTask_md ..
  have data_ : m'.nvm.data = m.nvm.data := by
    rw [ran]
    exact data.trans (congrArg NvmBuffer.data nvm)
  have ssd_ : m'.ssd = setBlocks m.ssd task.offset task.len (m.blocksAt task.buf) := by
    rw [ran]
    exact ssd'.trans ssd
  have mem_ : m'.mem = m.mem := by
    rw [ran]
    exact mem'.trans mem
  refine ⟨mem_, ?_, md ▸ cleared.keyed keyed⟩
  subst md
  funext b
  by_cases inside : task.offset ≤ b ∧ b < task.offset + task.len
  · obtain ⟨i, rfl⟩ := Nat.exists_eq_add_of_le inside.1
    have within : i < task.len := by omega
    have absent := cleared.find?_inside all inRange whole within
    rw [← segmentOf_block stripe within] at absent
    rw [Machine.blockContent_of_none absent, ssd_, setBlocks_inside inside.1 inside.2,
      setBlocks_inside inside.1 inside.2]
  · rw [setBlocks_outside inside]
    apply Machine.blockContent_congr cleared.perBlockNum (cleared.find?_outside all inside) data_
    rw [ssd_, setBlocks_outside inside]

/-- **A write that loses none of its blocks replaces their contents.** -/
theorem syncTask_write (all : AllIndexed m.md) (keyed : Keyed m.md) (inRange : InRange task)
    (stripe : InStripe idx task) (write : opCode task = MIX_WRITE)
    (safe : WriteSafe m.md task idx) (ran : m.syncTask (idx, task) = some m') :
    Written task m m' := by
  have notRead : ¬ opCode task = MIX_READ := by
    rw [write]
    decide
  obtain ⟨md', actions, ret, done, ran⟩ := syncTask_eq_some.1 ran
  simp only [nvmWorkerSsdTask, if_neg notRead, if_pos write] at done
  by_cases small : task.len ≤ WRITE_THRESHOLD
  · rw [WriteSafe, if_pos small] at safe
    have outcome := redirectWrite_small (all idx) inRange small
    refine smallWrite_written all keyed inRange stripe small outcome ?_ done ran
    rcases safe with found | full | alloc
    · left
      rwa [Ne, (all idx).test_eq_neg_one_iff, u32_key inRange.key] at found
    · left
      intro absent
      generalize redirectWrite m.md task idx = result at outcome done
      cases outcome with
      | overwrite found =>
          rw [absent] at found
          cases found
      | full | spins => cases done
      | enter _ room | leak _ room => exact room full
    · exact .inr alloc
  · rw [WriteSafe, if_neg small] at safe
    obtain ⟨removed, blocks, cleared⟩ :=
      clearBlockLoop_spec task.len task.offset m.md (all idx) inRange.2
    rw [redirectWrite, if_neg small] at done
    injection done with md_eq actions_eq
    subst md_eq actions_eq
    rw [List.cons_append] at ran
    exact largeWrite_written all keyed inRange stripe write safe cleared ran

/-! ## Migrations -/

/-- **A migration of segment 0 in which no thread stages over another leaves all contents as
they are.** -/
theorem migrated_content (first : idx.val = 0) (all : AllIndexed m.md) (keyed : Keyed m.md)
    {sched : List (Fin MIGRATE_THREAD_NUM)} (ran : mixMigrateSegment m idx sched = some m')
    (apart : StagesApart m idx sched) : m'.blockContent = m.blockContent ∧ Keyed m'.md := by
  have done := migrated (all idx).drainable ran
  have moved := migrated_data (all idx).drainable ran apart
  have empty := done.entries
  constructor
  · funext b
    by_cases mine : segmentOf b = idx
    · subst mine
      have ok' : Indexed m.md.perBlockNum (m'.segment (segmentOf b)) := done.indexed (all _)
      have absent : (m'.md.segments (segmentOf b)).hash.find? b = none := by
        apply (ok'.sound.find?_eq_none_iff ok'.keys).2
        intro v entry
        rw [empty] at entry
        cases entry
      rw [Machine.blockContent_of_none absent]
      cases look : (m.md.segments (segmentOf b)).hash.find? b with
      | none =>
          rw [Machine.blockContent_of_none look]
          apply done.ssd
          intro member
          obtain ⟨kv, entry, same⟩ := List.mem_map.1 member
          have missing := ((all (segmentOf b)).sound.find?_eq_none_iff (all _).keys).1 look kv.2
          exact missing (same ▸ entry)
      | some v =>
          rw [Machine.blockContent_of_some look, bufferBlock_first m.md first]
          exact moved (b, v) ((all _).find?_eq_some_iff.1 look)
    · have other : m'.md.segments (segmentOf b) = m.md.segments (segmentOf b) :=
        done.segments _ mine
      apply Machine.blockContent_congr done.perBlockNum (by rw [other]) done.data
      apply done.ssd
      intro member
      obtain ⟨kv, entry, rfl⟩ := List.mem_map.1 member
      exact mine (keyed idx kv entry)
  · intro j kv entry
    by_cases same : j = idx
    · subst same
      have nothing : (m'.md.segments j).hash.entries = [] := empty
      rw [nothing] at entry
      cases entry
    · have other : m'.md.segments j = m.md.segments j := done.segments j same
      rw [other] at entry
      exact keyed j kv entry

/-- **A write that migrates segment 0 first replaces the contents of its block.** -/
theorem syncMigrate_write (first : idx.val = 0) (all : AllIndexed m.md)
    (some_block : 0 < m.md.perBlockNum) (keyed : Keyed m.md) (inRange : InRange task)
    (stripe : InStripe idx task) {sched : List (Fin MIGRATE_THREAD_NUM)}
    (apart : StagesApart m idx sched) (ran : m.syncMigrate idx task sched = some m') :
    opCode task = MIX_WRITE ∧ Written task m m' := by
  unfold Machine.syncMigrate at ran
  cases result : nvmWorkerSsdTask m.md task idx with
  | done | spins =>
      rw [result] at ran
      cases ran
  | full =>
      rw [result] at ran
      obtain ⟨between, migration, finished⟩ := Option.bind_eq_some_iff.1 ran
      obtain ⟨write, small⟩ := nvmWorkerSsdTask_full result
      have done := migrated (all idx).drainable migration
      obtain ⟨content, keyed'⟩ := migrated_content first all keyed migration apart
      have all' := all.migrated done
      have outcome := redirectWriteAfterMigration_spec done (all idx) some_block inRange
      cases counted : (redirectWriteAfterMigration between.md task idx).counted with
      | full | spins =>
          rw [counted] at finished
          cases finished
      | done md' actions ret =>
          rw [counted, Machine.syncFinish, syncActions_eq] at finished
          have written := smallWrite_written all' keyed' inRange stripe small outcome
            (.inr done.allocSafe) counted (Option.some.inj finished).symm
          refine ⟨write, written.mem.trans done.mem, ?_, written.keyed⟩
          have blocks : between.blocksAt task.buf = m.blocksAt task.buf := by
            funext j
            exact congrArg (fun mem : Mem => mem.load (task.buf + j * BLOCK_SIZE)) done.mem
          rw [written.content, content, blocks]

end

end Mixdk
