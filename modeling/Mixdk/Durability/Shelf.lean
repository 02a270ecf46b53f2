/-
# Durability.Shelf -- what the records hold

A `Shelf` is a segment's part of the NVM read through its records: block `k` is in slot
`v` where `at_ k v`, in version `buf k`.  `Persisted` puts it beside what is tracked of
the SSD.  Where every posted write's cleared blocks are on the shelf, and nothing is
counted that is still to be cleared, a crash loses no completed write
(`Persisted.durable`).

What the nvm_worker does keeps both: a small write (`Persisted.written`), a posted write
(`Persisted.posted`), the clearing of a record (`Persisted.cleared`), the count of a
write (`Persisted.counted`), a migration at any of its points (`Persisted.midway`).
-/
import Mixdk.Durability.Ledger
import Mixdk.Durability.Midway

namespace Mixdk

open Transition

set_option autoImplicit false

/-- Slots of segment 0. -/
def slotNum (blockNum : Nat) : Nat :=
  ((mixMetadataInit blockNum).segments firstSegment).bitmap.bits

structure Shelf (start : Machine) (writes : List IoTask) (blockNum : Nat) (n : NvmBuffer)
    (at_ : Nat → Nat → Prop) (buf : Nat → Nat) : Prop where
  names : ∀ v < (mixMetadataInit blockNum).perBlockNum, ∀ k, RecordNames n v k ↔ at_ k v
  block : ∀ k v, at_ k v → Version start writes k (buf k) (n.data v)
  slot_lt : ∀ k v, at_ k v → v < slotNum blockNum
  key_lt : ∀ k v, at_ k v → k < NO_ENTRY
  one_slot : ∀ k v w, at_ k v → at_ k w → v = w

structure Persisted (start : Machine) (writes : List IoTask) (blockNum N : Nat) (d : Device)
    (n : NvmBuffer) (at_ : Nat → Nat → Prop) (onSsd buf : Nat → Nat) (rest : Nat → Prop) :
    Prop where
  shelf : Shelf start writes blockNum n at_ buf
  tracked : Tracked start writes N d onSsd buf (fun k => ∃ v, at_ k v) rest

/-- No block is still to be cleared. -/
abbrev Nothing : Nat → Prop := fun _ => False

section

variable {start : Machine} {writes : List IoTask} {blockNum N : Nat} {d d' : Device}
  {n n' : NvmBuffer} {at_ at' : Nat → Nat → Prop} {onSsd buf : Nat → Nat} {rest : Nat → Prop}
  {k v : Nat}

theorem slotNum_le (word : blockNum < 2 ^ 32) :
    slotNum blockNum ≤ (mixMetadataInit blockNum).perBlockNum :=
  (mixMetadataInit_indexed word firstSegment).bits_le

/-! ## After a crash -/

theorem Shelf.inside (word : blockNum < 2 ^ 32) (shelf : Shelf start writes blockNum n at_ buf)
    (there : at_ k v) : v < (mixMetadataInit blockNum).perBlockNum :=
  Nat.lt_of_lt_of_le (shelf.slot_lt k v there) (slotNum_le word)

/-- A slot has one block. -/
theorem Shelf.one_block (word : blockNum < 2 ^ 32) (shelf : Shelf start writes blockNum n at_ buf)
    {k' : Nat} (there : at_ k v) (there' : at_ k' v) : k = k' := by
  have inside := shelf.inside word there
  have here := (shelf.names v inside k).2 there
  have here' := (shelf.names v inside k').2 there'
  exact here.2.symm.trans here'.2

theorem Shelf.scannable (shelf : Shelf start writes blockNum n at_ buf) :
    Scannable (mixMetadataInit blockNum) n firstSegment where
  distinct := by
    intro v inV w inW k here there
    rw [bufferBlock_firstSegment] at here there
    exact shelf.one_slot k v w ((shelf.names v inV k).1 here) ((shelf.names w inW k).1 there)
  key_lt := by
    intro v inV k here
    rw [bufferBlock_firstSegment] at here
    exact shelf.key_lt k v ((shelf.names v inV k).1 here)
  slot_lt := by
    intro v inV k here
    rw [bufferBlock_firstSegment] at here
    exact shelf.slot_lt k v ((shelf.names v inV k).1 here)

/-- A restart finds the copy on the shelf. -/
theorem Shelf.recovered {m : Machine} (word : blockNum < 2 ^ 32)
    (shelf : Shelf start writes blockNum m.nvm at_ buf) (there : at_ k v) :
    m.recoveredBlock blockNum firstSegment k = m.nvm.data v := by
  have inside := shelf.inside word there
  have names := (shelf.names v inside k).2 there
  rw [← bufferBlock_firstSegment (mixMetadataInit blockNum) v] at names
  rw [recoveredBlock_of_named word shelf.scannable inside names, bufferBlock_firstSegment]

/-- And the SSD's of a block that is not on the shelf. -/
theorem Shelf.recovered_ssd {m : Machine} (word : blockNum < 2 ^ 32)
    (shelf : Shelf start writes blockNum m.nvm at_ buf) (key : k < NO_ENTRY)
    (absent : ¬ ∃ v, at_ k v) : m.recoveredBlock blockNum firstSegment k = m.ssd k := by
  apply recoveredBlock_of_unnamed word shelf.scannable key
  intro v inside names
  rw [bufferBlock_firstSegment] at names
  exact absent ⟨v, (shelf.names v inside k).1 names⟩

/-- **A crash here loses no completed write.** -/
theorem Persisted.durable (word : blockNum < 2 ^ 32) (upto : N ≤ d.worker.begun)
    (kept : Persisted start writes blockNum N d d.m.nvm at_ onSsd buf rest)
    (held : ∀ w ∈ d.pend, ∀ b, w.Clears b → ∃ v, at_ b v)
    (uncounted : ∀ k, rest k → N - 1 ∉ d.completed) :
    d.Durable start writes blockNum := by
  obtain ⟨shelf, tracked⟩ := kept
  intro b key
  by_cases live : ∃ v, at_ b v
  · obtain ⟨v, there⟩ := live
    rw [shelf.recovered word there]
    refine ⟨buf b, shelf.block b v there, tracked.issued b ⟨v, there⟩, ?_⟩
    intro number counted covers
    have below := tracked.ledger.completed number counted
    rcases tracked.newest b ⟨v, there⟩ number below covers with newer | ⟨last, waits⟩
    · exact newer
    · have same : number = N - 1 := by omega
      exact absurd (same ▸ counted) (uncounted b waits)
  · rw [shelf.recovered_ssd word key live]
    refine ⟨onSsd b, tracked.ledger.ssd b, (tracked.ledger.issued b).trans upto, ?_⟩
    intro number counted covers
    rcases tracked.dead b live number counted covers with arrived | ⟨w, waits, clears, -⟩
    · exact arrived
    · exact absurd (held w waits b clears) live

/-! ## Steps beside the SSD -/

/-- The SSD and what is on its way to it are the same. -/
structure SameSsd (d d' : Device) : Prop where
  mem : d'.m.mem = d.m.mem
  ssd : d'.m.ssd = d.m.ssd
  memalignSrc : d'.m.memalignSrc = d.m.memalignSrc
  ssdQueue : d'.ssdQueue = d.ssdQueue
  pc : d'.ssd = d.ssd

theorem SameSsd.pend (same : SameSsd d d') : d'.pend = d.pend := by
  rw [Device.pend, Device.pend, same.pc, same.ssdQueue]

theorem SameSsd.reaches (same : SameSsd d d') : Reaches d' onSsd k v ↔ Reaches d onSsd k v := by
  rw [Reaches, Reaches, same.pend]

theorem Ledger.same (ledger : Ledger start writes N d onSsd) (same : SameSsd d d')
    (completed : ∀ number ∈ d'.completed, number ∈ d.completed ∨ number < N) :
    Ledger start writes N d' onSsd := by
  apply ledger.keep same.mem same.ssd same.pend _ _ completed
  · intro w staged
    rw [same.memalignSrc]
    exact ledger.staged w (same.pc.symm.trans staged)
  · intro w written
    exact same.pc.symm.trans written

/-- The worker goes on, and leaves records and SSD alone. -/
theorem Persisted.same (kept : Persisted start writes blockNum N d n at_ onSsd buf rest)
    (same : SameSsd d d') (begun : d.worker.begun ≤ d'.worker.begun)
    (completed : d'.completed = d.completed) :
    Persisted start writes blockNum N d' n at_ onSsd buf rest where
  shelf := kept.shelf
  tracked := by
    obtain ⟨ledger, dead, newest, issued, due⟩ := kept.tracked
    refine ⟨ledger.same same ?_, ?_, newest, ?_, ?_⟩
    · intro number counted
      rw [completed] at counted
      exact .inl counted
    · rw [completed]
      exact fun b gone number counted covers =>
        same.reaches.2 (dead b gone number counted covers)
    · exact fun k live => (issued k live).trans begun
    · exact fun k waits => same.reaches.2 (due k waits)

theorem Persisted.congr (kept : Persisted start writes blockNum N d n at_ onSsd buf rest)
    (places : ∀ k v, at' k v ↔ at_ k v) {rest' : Nat → Prop} (rests : ∀ k, rest' k ↔ rest k) :
    Persisted start writes blockNum N d n at' onSsd buf rest' := by
  obtain rfl : at' = at_ := by
    funext k v
    exact propext (places k v)
  obtain rfl : rest' = rest := by
    funext k
    exact propext (rests k)
  exact kept

/-- **A step of the ssd_worker.** -/
theorem Persisted.ssdStep (requests : ∀ task ∈ writes, WriteTask task)
    (kept : Persisted start writes blockNum N d n at_ onSsd buf rest)
    (stepped : d.ssdStep = some d') :
    ∃ onSsd', Persisted start writes blockNum N d' n at_ onSsd' buf rest ∧
      d'.worker = d.worker ∧ d'.m.md = d.m.md ∧ d'.m.nvm = d.m.nvm := by
  obtain ⟨onSsd', tracked, worker, md, nvm⟩ := kept.tracked.ssdStep requests stepped
  exact ⟨onSsd', ⟨kept.shelf, tracked⟩, worker, md, nvm⟩

/-! ## A small write -/

/-- `at'` is `at_` once block `b` has got slot `v`. -/
structure Placing (at_ at' : Nat → Nat → Prop) (b v : Nat) : Prop where
  after : ∀ k w, at' k w ↔ (k = b ∧ w = v) ∨ (w ≠ v ∧ at_ k w)
  same_slot : ∀ k, at_ k v → k = b
  same_block : ∀ w, at_ b w → w = v

theorem Placing.here {b : Nat} (placing : Placing at_ at' b v) : at' b v :=
  (placing.after b v).2 (.inl ⟨rfl, rfl⟩)

/-- No block leaves the shelf. -/
theorem Placing.live {b w : Nat} (placing : Placing at_ at' b v) (there : at_ k w) :
    ∃ w, at' k w := by
  by_cases same : w = v
  · subst same
    obtain rfl := placing.same_slot k there
    exact ⟨w, placing.here⟩
  · exact ⟨w, (placing.after k w).2 (.inr ⟨same, there⟩)⟩

/-- What is in the slot is the block's, elsewhere nothing has changed. -/
theorem Placing.cases {b w : Nat} (placing : Placing at_ at' b v) (there : at' k w) :
    (k = b ∧ w = v) ∨ (k ≠ b ∧ w ≠ v ∧ at_ k w) := by
  rcases (placing.after k w).1 there with here | ⟨other, before⟩
  · exact .inl here
  · refine .inr ⟨?_, other, before⟩
    rintro rfl
    exact other (placing.same_block w before)

theorem Shelf.written {b : Nat} (shelf : Shelf start writes blockNum n at_ buf)
    (placing : Placing at_ at' b v) (slot : v < slotNum blockNum) (key : b < NO_ENTRY)
    (new : Version start writes b N (n'.data v)) (names : RecordNames n' v b)
    (others : ∀ w, w ≠ v → n'.data w = n.data w ∧ n'.metas w = n.metas w) :
    Shelf start writes blockNum n' at' (Function.update buf b N) where
  names := by
    intro w inside k
    rw [placing.after]
    by_cases here : w = v
    · subst here
      constructor
      · intro names'
        exact .inl ⟨names'.2.symm.trans names.2, rfl⟩
      · rintro (⟨rfl, -⟩ | ⟨other, -⟩)
        · exact names
        · exact absurd rfl other
    · have before := shelf.names w inside k
      rw [RecordNames, mixBufferGetMeta, (others w here).2]
      constructor
      · exact fun names' => .inr ⟨here, before.1 names'⟩
      · rintro (⟨-, same⟩ | ⟨-, there⟩)
        · exact absurd same here
        · exact before.2 there
  block := by
    intro k w there
    rcases placing.cases there with ⟨rfl, rfl⟩ | ⟨other, elsewhere, before⟩
    · rw [Function.update_self]
      exact new
    · rw [Function.update_of_ne other, (others w elsewhere).1]
      exact shelf.block k w before
  slot_lt := by
    intro k w there
    rcases placing.cases there with ⟨rfl, rfl⟩ | ⟨-, -, before⟩
    · exact slot
    · exact shelf.slot_lt k w before
  key_lt := by
    intro k w there
    rcases placing.cases there with ⟨rfl, rfl⟩ | ⟨-, -, before⟩
    · exact key
    · exact shelf.key_lt k w before
  one_slot := by
    intro k w w' there there'
    rcases placing.cases there with ⟨rfl, rfl⟩ | ⟨other, -, before⟩
    · rcases placing.cases there' with ⟨-, rfl⟩ | ⟨other, -⟩
      · rfl
      · exact absurd rfl other
    · rcases placing.cases there' with ⟨same, -⟩ | ⟨-, -, before'⟩
      · exact absurd same other
      · exact shelf.one_slot k w w' before before'

theorem Ledger.mono {M : Nat} (ledger : Ledger start writes N d onSsd) (le : N ≤ M) :
    Ledger start writes M d onSsd where
  mem := ledger.mem
  ssd := ledger.ssd
  issued := fun b => (ledger.issued b).trans le
  posted := fun w waits => (ledger.posted w waits).mono le
  order := ledger.order
  later := ledger.later
  staged := ledger.staged
  written := fun w at_ => ⟨(ledger.written w at_).1.mono le, (ledger.written w at_).2⟩
  completed := fun number counted => Nat.lt_of_lt_of_le (ledger.completed number counted) le

/-- **A small write, once the record of its slot names its block.** -/
theorem Persisted.written {b : Nat}
    (kept : Persisted start writes blockNum N d n at_ onSsd buf Nothing)
    (placing : Placing at_ at' b v) (slot : v < slotNum blockNum) (key : b < NO_ENTRY)
    (begun : N < d.worker.begun) (single : ∀ k, Covers writes N k → k = b)
    (new : Version start writes b (N + 1) (n'.data v)) (names : RecordNames n' v b)
    (others : ∀ w, w ≠ v → n'.data w = n.data w ∧ n'.metas w = n.metas w) :
    Persisted start writes blockNum (N + 1) d n' at' onSsd (Function.update buf b (N + 1))
      Nothing where
  shelf := kept.shelf.written placing slot key new names others
  tracked := by
    obtain ⟨ledger, dead, newest, issued, -⟩ := kept.tracked
    refine ⟨ledger.mono (Nat.le_succ N), ?_, ?_, ?_, fun k waits => waits.elim⟩
    · intro k gone
      exact dead k fun ⟨w, there⟩ => gone (placing.live there)
    · rintro k ⟨w, there⟩ number below covers
      left
      rcases placing.cases there with ⟨rfl, rfl⟩ | ⟨other, -, before⟩
      · rw [Function.update_self]
        exact below
      · have earlier : number < N := by
          rcases Nat.lt_or_eq_of_le (Nat.le_of_lt_succ below) with earlier | rfl
          · exact earlier
          · exact absurd (single k covers) other
        rw [Function.update_of_ne other]
        exact (newest k ⟨w, before⟩ number earlier covers).resolve_right fun waits => waits.2
    · rintro k ⟨w, there⟩
      rcases placing.cases there with ⟨rfl, rfl⟩ | ⟨other, -, before⟩
      · rw [Function.update_self]
        exact begun
      · rw [Function.update_of_ne other]
        exact issued k ⟨w, before⟩

/-! ## A large write -/

theorem Device.pend_post (d : Device) (worker : NvmWorker) (w : Posted) :
    { d with worker := worker, ssdQueue := d.ssdQueue ++ [w] }.pend = d.pend ++ [w] := by
  cases at_ : d.ssd <;> simp [Device.pend, at_]

/-- **A large write is queued; its buffered blocks are still to be cleared.** -/
theorem Persisted.posted {worker : NvmWorker} {w : Posted}
    (kept : Persisted start writes blockNum N d n at_ onSsd buf Nothing)
    (fits : w.Fits writes (N + 1)) (number : w.number = N)
    (begun : d.worker.begun ≤ worker.begun)
    (waiting : ∀ k v, at_ k v → Covers writes N k → rest k) (clears : ∀ k, rest k → w.Clears k) :
    Persisted start writes blockNum (N + 1)
      { d with worker := worker, ssdQueue := d.ssdQueue ++ [w] } n at_ onSsd buf rest where
  shelf := kept.shelf
  tracked := by
    obtain ⟨ledger, dead, newest, issued, -⟩ := kept.tracked
    have pend := d.pend_post worker w
    have last : w ∈ d.pend ++ [w] := List.mem_append_right _ (List.mem_singleton_self w)
    have later := ledger.mono (Nat.le_succ N)
    refine ⟨⟨later.mem, later.ssd, later.issued, ?_, ?_, ?_, later.staged, later.written,
      later.completed⟩, ?_, ?_, ?_, ?_⟩
    · intro w' waits
      rw [pend] at waits
      rcases List.mem_append.1 waits with before | here
      · exact later.posted w' before
      · rw [List.mem_singleton.1 here]
        exact fits
    · rw [pend, List.pairwise_append]
      refine ⟨ledger.order, List.pairwise_singleton _ _, fun w₁ before w₂ here => ?_⟩
      rw [List.mem_singleton.1 here, number]
      exact (ledger.posted w₁ before).below
    · intro w' waits b has
      rw [pend] at waits
      rcases List.mem_append.1 waits with before | here
      · exact ledger.later w' before b has
      · rw [List.mem_singleton.1 here, number]
        exact ledger.issued b
    · intro b gone number' counted covers
      rcases dead b gone number' counted covers with arrived | ⟨w', waits, clears', upto⟩
      · exact .inl arrived
      · refine .inr ⟨w', ?_, clears', upto⟩
        rw [pend]
        exact List.mem_append_left _ waits
    · rintro k ⟨v, there⟩ number' below covers
      rcases Nat.lt_or_eq_of_le (Nat.le_of_lt_succ below) with earlier | rfl
      · left
        exact (newest k ⟨v, there⟩ number' earlier covers).resolve_right fun waits => waits.2
      · exact .inr ⟨rfl, waiting k v there covers⟩
    · exact fun k live => (issued k live).trans begun
    · intro k waits
      refine .inr ⟨w, ?_, clears k waits, by rw [number]⟩
      rw [pend]
      exact last

theorem recordNames_clear (n : NvmBuffer) (b v k : Nat) :
    RecordNames (mixBufferClear n v) b k ↔ b ≠ v ∧ RecordNames n b k := by
  have metas : (mixBufferClear n v).metas b =
      if b = v then { n.metas b with status := 0 } else n.metas b := by
    by_cases here : b = v
    · subst here
      rw [if_pos rfl]
      exact Function.update_self ..
    · rw [if_neg here]
      exact Function.update_of_ne here ..
  exact recordNames_cleared metas

/-- **The record of a block that the queued write brings to the SSD is cleared.** -/
theorem Persisted.cleared {k₁ v₁ : Nat} (word : blockNum < 2 ^ 32)
    (kept : Persisted start writes blockNum N d n at_ onSsd buf rest) (there : at_ k₁ v₁)
    (waits : rest k₁) :
    Persisted start writes blockNum N d (mixBufferClear n v₁) (fun k v => at_ k v ∧ v ≠ v₁) onSsd
      buf (fun k => rest k ∧ k ≠ k₁) := by
  obtain ⟨shelf, ledger, dead, newest, issued, due⟩ := kept
  refine ⟨⟨?_, ?_, ?_, ?_, ?_⟩, ledger, ?_, ?_, ?_, fun k later => due k later.1⟩
  · intro v inside k
    rw [recordNames_clear, shelf.names v inside k, and_comm]
  · exact fun k v here => shelf.block k v here.1
  · exact fun k v here => shelf.slot_lt k v here.1
  · exact fun k v here => shelf.key_lt k v here.1
  · exact fun k v w here here' => shelf.one_slot k v w here.1 here'.1
  · intro b gone number counted covers
    by_cases live : ∃ v, at_ b v
    · -- the block has just been cleared: the SSD gets the queued write
      obtain ⟨v, before⟩ := live
      have same : v = v₁ := by
        by_contra other
        exact gone ⟨v, before, other⟩
      subst same
      obtain rfl := shelf.one_block word there before
      exact (due k₁ waits).le (ledger.completed number counted)
    · exact dead b live number counted covers
  · rintro k ⟨v, here, other⟩ number below covers
    rcases newest k ⟨v, here⟩ number below covers with newer | ⟨last, later⟩
    · exact .inl newer
    · refine .inr ⟨last, later, ?_⟩
      rintro rfl
      exact other (shelf.one_slot k v v₁ here there)
  · exact fun k ⟨v, here, _⟩ => issued k ⟨v, here⟩

/-- A write whose blocks are on the shelf is counted. -/
theorem Persisted.counted {number : Nat}
    (kept : Persisted start writes blockNum N d n at_ onSsd buf Nothing) (below : number < N)
    (stocked : ∀ k, Covers writes number k → ∃ v, at_ k v) :
    Persisted start writes blockNum N { d with completed := number :: d.completed } n at_ onSsd buf
      Nothing where
  shelf := kept.shelf
  tracked := by
    obtain ⟨ledger, dead, newest, issued, due⟩ := kept.tracked
    refine ⟨ledger.keep rfl rfl rfl ledger.staged (fun w at_ => at_) ?_, ?_, newest, issued, due⟩
    · intro number' counted
      rcases List.mem_cons.1 counted with rfl | before
      · exact .inr below
      · exact .inl before
    · intro b gone number' counted covers
      rcases List.mem_cons.1 counted with rfl | before
      · exact absurd (stocked b covers) gone
      · exact dead b gone number' before covers

/-! ## A migration -/

theorem Device.pend_idle (queue : d.ssdQueue = []) (idle : d.ssd.Idle) : d.pend = [] := by
  rcases idle with at_ | at_ <;> simp only [Device.pend, at_, queue]

/-- With the ssd_worker idle and its queue empty, the ledger is about the SSD alone. -/
theorem Ledger.idle (queue : d.ssdQueue = []) (idle : d.ssd.Idle) (mem : d.m.mem = start.mem)
    (ssd : ∀ b, Version start writes b (onSsd b) (d.m.ssd b)) (issued : ∀ b, onSsd b ≤ N)
    (completed : ∀ number ∈ d.completed, number < N) : Ledger start writes N d onSsd := by
  have pend := Device.pend_idle queue idle
  refine ⟨mem, ssd, issued, ?_, ?_, ?_, ?_, ?_, completed⟩
  · rw [pend]
    exact List.forall_mem_nil _
  · rw [pend]
    exact .nil
  · rw [pend]
    exact List.forall_mem_nil _
  · intro w staged
    rcases idle with at_ | at_ <;> cases at_.symm.trans staged
  · intro w written
    rcases idle with at_ | at_ <;> cases at_.symm.trans written

/-- A migration takes slots off the shelf. -/
theorem Shelf.midway {m m' : Machine} {gone : MixKv → Prop} (word : blockNum < 2 ^ 32)
    (shelf : Shelf start writes blockNum m.nvm at_ buf)
    (there : ∀ k v, gone (k, v) → at_ k v) (midway : Midway firstSegment m m' gone) :
    Shelf start writes blockNum m'.nvm (fun k v => at_ k v ∧ ¬ gone (k, v)) buf where
  names := by
    intro v inside k
    rw [midway.names, shelf.names v inside k, and_comm]
    refine and_congr_right fun here => not_congr ⟨?_, fun out => ⟨_, out, rfl⟩⟩
    rintro ⟨kv, out, rfl⟩
    rwa [shelf.one_block word here (there kv.1 kv.2 out)]
  block := by
    intro k v here
    rw [midway.same.data]
    exact shelf.block k v here.1
  slot_lt := fun k v here => shelf.slot_lt k v here.1
  key_lt := fun k v here => shelf.key_lt k v here.1
  one_slot := fun k v w here here' => shelf.one_slot k v w here.1 here'.1

/-- `version` is that of block `b` on the SSD of `m'`: its copy's, once the copy has been written
back, and until then the one it had. -/
def BroughtBack (at_ : Nat → Nat → Prop) (onSsd buf : Nat → Nat) (gone : MixKv → Prop)
    (m m' : Machine) (b version : Nat) : Prop :=
  (version = buf b ∧ ∃ v, at_ b v ∧ m'.ssd b = m.nvm.data v) ∨
    (version = onSsd b ∧ (∀ v, ¬ gone (b, v)) ∧ m'.ssd b = m.ssd b)

theorem exists_broughtBack (onSsd buf : Nat → Nat) {m m' : Machine} {gone : MixKv → Prop}
    (entries : ∀ k v, at_ k v ↔ (k, v) ∈ (m.segment firstSegment).hash.entries)
    (midway : Midway firstSegment m m' gone) (b : Nat) :
    ∃ version, BroughtBack at_ onSsd buf gone m m' b version := by
  by_cases out : ∃ v, gone (b, v)
  · obtain ⟨v, out⟩ := out
    exact ⟨buf b, .inl ⟨rfl, v, (entries b v).2 (midway.entry _ out), midway.moved _ out⟩⟩
  · rcases midway.ssd b with old | ⟨v, entry, ssd⟩
    · exact ⟨onSsd b, .inr ⟨rfl, not_exists.1 out, old⟩⟩
    · exact ⟨buf b, .inl ⟨rfl, v, (entries b v).2 entry, ssd⟩⟩

/-- **At any point of a migration each block is on the shelf or in the same version on the
SSD.** -/
theorem Persisted.midway {m : Machine} {gone : MixKv → Prop} (word : blockNum < 2 ^ 32)
    (kept : Persisted start writes blockNum N d d.m.nvm at_ onSsd buf Nothing)
    (entries : ∀ k v, at_ k v ↔ (k, v) ∈ (d.m.segment firstSegment).hash.entries)
    (begun : d.worker.begun = N) (queue : d.ssdQueue = []) (idle : d.ssd.Idle)
    (midway : Midway firstSegment d.m m gone) :
    ∃ onSsd', Persisted start writes blockNum N { d with m := m } m.nvm
      (fun k v => at_ k v ∧ ¬ gone (k, v)) onSsd' buf Nothing := by
  obtain ⟨shelf, ledger, dead, newest, issued, -⟩ := kept
  have there : ∀ k v, gone (k, v) → at_ k v := fun k v out => (entries k v).2 (midway.entry _ out)
  choose onSsd' brought using exists_broughtBack onSsd buf entries midway
  refine ⟨onSsd', shelf.midway word there midway,
    .idle queue idle (midway.same.mem.trans ledger.mem) ?_ ?_ ledger.completed, ?_, ?_, ?_,
    fun k waits => waits.elim⟩
  · intro b
    rcases brought b with ⟨version, v, here, ssd⟩ | ⟨version, -, ssd⟩
    · rw [version]
      exact ssd ▸ shelf.block b v here
    · rw [version]
      exact ssd ▸ ledger.ssd b
  · intro b
    rcases brought b with ⟨version, v, here, -⟩ | ⟨version, -⟩
    · rw [version, ← begun]
      exact issued b ⟨v, here⟩
    · rw [version]
      exact ledger.issued b
  · intro b absent number counted covers
    left
    rcases brought b with ⟨version, v, here, -⟩ | ⟨version, stays, -⟩
    · rw [version]
      have below := ledger.completed number counted
      exact (newest b ⟨v, here⟩ number below covers).resolve_right fun waits => waits.2
    · rw [version]
      have missing : ¬ ∃ v, at_ b v := fun ⟨v, here⟩ => absent ⟨v, here, stays v⟩
      rcases dead b missing number counted covers with arrived | ⟨w, waits, -⟩
      · exact arrived
      · rw [Device.pend_idle queue idle] at waits
        cases waits
  · exact fun k ⟨v, here, _⟩ => newest k ⟨v, here⟩
  · rintro k ⟨v, here, -⟩
    exact issued k ⟨v, here⟩

end

end Mixdk
