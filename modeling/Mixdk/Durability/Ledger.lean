/-
# Durability.Ledger -- what the ssd_worker has brought to the SSD

`Ledger` is what holds of the SSD and its queue: the version each block of the SSD has,
and that the posted writes come in their order and after what the SSD has already.  The
numbers are those of the first `N` writes.

A completed write of a block that is not in the buffer has reached the SSD, or a posted
write that cleared the block will overwrite it (`Reaches`); a block in the buffer has
its newest version there (`Tracked`).  A step of the ssd_worker keeps both
(`Tracked.ssdStep`).
-/
import Mixdk.Durability.Device

namespace Mixdk

set_option autoImplicit false

/-- A write of blocks that can be keys. -/
structure WriteTask (task : IoTask) : Prop where
  op : opCode task = MIX_WRITE
  inRange : InRange task

/-- The posted write is one of the first `N`, and clears no more blocks than it has. -/
structure Posted.Fits (writes : List IoTask) (N : Nat) (w : Posted) : Prop where
  nth : writes[w.number]? = some w.task
  below : w.number < N
  clears_le : w.clears ≤ w.task.len

/-- `b` is a block of the write. -/
def Posted.Has (w : Posted) (b : Nat) : Prop := w.task.offset ≤ b ∧ b < w.task.offset + w.task.len

/-- `b` is one of the blocks whose records the write clears. -/
def Posted.Clears (w : Posted) (b : Nat) : Prop := w.task.offset ≤ b ∧ b < w.task.offset + w.clears

structure Ledger (start : Machine) (writes : List IoTask) (N : Nat) (d : Device)
    (onSsd : Nat → Nat) : Prop where
  mem : d.m.mem = start.mem
  ssd : ∀ b, Version start writes b (onSsd b) (d.m.ssd b)
  issued : ∀ b, onSsd b ≤ N
  posted : ∀ w ∈ d.pend, w.Fits writes N
  order : d.pend.Pairwise fun w w' => w.number < w'.number
  later : ∀ w ∈ d.pend, ∀ b, w.Has b → onSsd b ≤ w.number
  staged : ∀ w, d.ssd = .staged w → ∀ j < w.task.len,
    d.m.memalignSrc (stagingBlock firstSegment + j) = start.blocksAt w.task.buf j
  written : ∀ w, d.ssd = .written w → w.Fits writes N ∧ ∀ b, w.Has b → w.number < onSsd b
  completed : ∀ number ∈ d.completed, number < N

/-- Before the first write the SSD has its first versions. -/
theorem Ledger.init (start : Machine) (writes : List IoTask) :
    Ledger start writes 0 (.start start) fun _ => 0 where
  mem := rfl
  ssd := fun _ => .initial
  issued := fun _ => Nat.le_refl 0
  posted := List.forall_mem_nil _
  order := .nil
  later := List.forall_mem_nil _
  staged := fun w staged => by cases staged
  written := fun w written => by cases written
  completed := List.forall_mem_nil _

/-- Version `v` of block `b`, or a later one, is on the SSD, or a posted write that clears `b`
brings it there. -/
def Reaches (d : Device) (onSsd : Nat → Nat) (b v : Nat) : Prop :=
  v ≤ onSsd b ∨ ∃ w ∈ d.pend, w.Clears b ∧ v ≤ w.number + 1

/-- A step of the ssd_worker. -/
structure Advances (writes : List IoTask) (d d' : Device) (onSsd onSsd' : Nat → Nat) : Prop where
  worker : d'.worker = d.worker
  md : d'.m.md = d.m.md
  nvm : d'.m.nvm = d.m.nvm
  grows : ∀ b, onSsd b ≤ onSsd' b
  arrives : ∀ w ∈ d.pend, w ∈ d'.pend ∨ ∀ b, w.Has b → w.number < onSsd' b
  counts : ∀ number ∈ d'.completed, number ∈ d.completed ∨
    ∀ b, Covers writes number b → number < onSsd' b

section

variable {start : Machine} {writes : List IoTask} {N : Nat} {d d' : Device} {onSsd onSsd' : Nat → Nat}
  {b v : Nat} {w : Posted}

theorem Posted.Fits.has_of_clears (fits : w.Fits writes N) (clears : w.Clears b) : w.Has b := by
  have := fits.clears_le
  exact ⟨clears.1, by have := clears.2; omega⟩

theorem Posted.Fits.has_of_covers (fits : w.Fits writes N) (covers : Covers writes w.number b) :
    w.Has b := by
  obtain ⟨task, nth, low, high⟩ := covers
  obtain rfl := Option.some.inj (fits.nth.symm.trans nth)
  exact ⟨low, high⟩

theorem Posted.Fits.mono {M : Nat} (fits : w.Fits writes N) (le : N ≤ M) : w.Fits writes M :=
  ⟨fits.nth, Nat.lt_of_lt_of_le fits.below le, fits.clears_le⟩

theorem Reaches.le {u : Nat} (reaches : Reaches d onSsd b v) (le : u ≤ v) : Reaches d onSsd b u := by
  rcases reaches with there | ⟨w, member, clears, upto⟩
  · exact .inl (le.trans there)
  · exact .inr ⟨w, member, clears, le.trans upto⟩

theorem Reaches.advance (ledger : Ledger start writes N d onSsd)
    (advances : Advances writes d d' onSsd onSsd') (reaches : Reaches d onSsd b v) :
    Reaches d' onSsd' b v := by
  rcases reaches with there | ⟨w, member, clears, upto⟩
  · exact .inl (there.trans (advances.grows b))
  · rcases advances.arrives w member with waiting | arrived
    · exact .inr ⟨w, waiting, clears, upto⟩
    · have := arrived b ((ledger.posted w member).has_of_clears clears)
      exact .inl (by omega)

/-- A step that leaves the SSD and the posted writes alone. -/
theorem Ledger.keep (ledger : Ledger start writes N d onSsd) (mem : d'.m.mem = d.m.mem)
    (ssd : d'.m.ssd = d.m.ssd) (pend : d'.pend = d.pend)
    (staged : ∀ w, d'.ssd = .staged w → ∀ j < w.task.len,
      d'.m.memalignSrc (stagingBlock firstSegment + j) = start.blocksAt w.task.buf j)
    (written : ∀ w, d'.ssd = .written w → d.ssd = .written w)
    (completed : ∀ number ∈ d'.completed, number ∈ d.completed ∨ number < N) :
    Ledger start writes N d' onSsd where
  mem := mem.trans ledger.mem
  ssd := by
    rw [ssd]
    exact ledger.ssd
  issued := ledger.issued
  posted := by
    rw [pend]
    exact ledger.posted
  order := by
    rw [pend]
    exact ledger.order
  later := by
    rw [pend]
    exact ledger.later
  staged := staged
  written := fun w at_ => ledger.written w (written w at_)
  completed := by
    intro number member
    rcases completed number member with old | below
    · exact ledger.completed number old
    · exact below

theorem ssdWriteFlush_ssd (m : Machine) (len offset idx : Nat) :
    (m.ssdWriteFlush len offset idx).ssd =
      setBlocks m.ssd offset len fun j => m.memalignSrc (stagingBlock idx + j) := rfl

instance (w : Posted) (b : Nat) : Decidable (w.Has b) := inferInstanceAs (Decidable (_ ∧ _))

/-- The versions on the SSD once `w` is there. -/
def Posted.arrive (w : Posted) (onSsd : Nat → Nat) (b : Nat) : Nat :=
  if w.Has b then w.number + 1 else onSsd b

theorem Posted.arrive_of_has (has : w.Has b) : w.arrive onSsd b = w.number + 1 := if_pos has

theorem Posted.arrive_of_not_has (has : ¬ w.Has b) : w.arrive onSsd b = onSsd b := if_neg has

theorem Posted.number_lt_arrive (has : w.Has b) : w.number < w.arrive onSsd b := by
  rw [arrive_of_has has]
  exact Nat.lt_succ_self _

theorem Posted.arrive_le {M : Nat} (has : w.Has b → w.number + 1 ≤ M) (before : onSsd b ≤ M) :
    w.arrive onSsd b ≤ M := by
  by_cases inside : w.Has b
  · rw [arrive_of_has inside]
    exact has inside
  · rw [arrive_of_not_has inside]
    exact before

theorem Posted.le_arrive (later : w.Has b → onSsd b ≤ w.number) : onSsd b ≤ w.arrive onSsd b := by
  by_cases has : w.Has b
  · rw [arrive_of_has has]
    exact (later has).trans (Nat.le_succ _)
  · rw [arrive_of_not_has has]

/-- The `pwrite` of a staged write leaves each block of the SSD at its version. -/
theorem Ledger.flush_version (ledger : Ledger start writes N d onSsd) (at_ : d.ssd = .staged w)
    (fits : w.Fits writes N) :
    Version start writes b (w.arrive onSsd b)
      ((d.m.ssdWriteFlush w.task.len w.task.offset firstSegment).ssd b) := by
  rw [ssdWriteFlush_ssd]
  by_cases has : w.Has b
  · have inside : b - w.task.offset < w.task.len := by
      have := has.1
      have := has.2
      omega
    rw [Posted.arrive_of_has has, setBlocks_inside has.1 has.2, ledger.staged w at_ _ inside]
    exact .write fits.nth has.1 has.2
  · rw [Posted.arrive_of_not_has has, setBlocks_outside has]
    exact ledger.ssd b

/-- The `pwrite` brings its blocks to the SSD. -/
theorem Ledger.flush (ledger : Ledger start writes N d onSsd) (at_ : d.ssd = .staged w)
    (stepped : d.ssdStep = some d') : ∃ onSsd', Ledger start writes N d' onSsd' ∧
      Advances writes d d' onSsd onSsd' := by
  have pend : d.pend = w :: d.ssdQueue := by
    rw [Device.pend, at_]
  simp only [Device.ssdStep, at_, Option.some.injEq] at stepped
  subst stepped
  have head : w ∈ d.pend := by
    rw [pend]
    exact List.mem_cons_self
  have waiting : ∀ w' ∈ d.ssdQueue, w' ∈ d.pend := by
    intro w' member
    rw [pend]
    exact List.mem_cons_of_mem _ member
  have fits := ledger.posted w head
  have order := ledger.order
  rw [pend, List.pairwise_cons] at order
  refine ⟨w.arrive onSsd, ?_, ?_⟩
  · constructor
    · exact ledger.mem
    · exact fun b => ledger.flush_version at_ fits
    · exact fun b => Posted.arrive_le (fun _ => fits.below) (ledger.issued b)
    · exact fun w' member => ledger.posted w' (waiting w' member)
    · exact order.2
    · intro w' member b has'
      exact Posted.arrive_le (fun _ => order.1 w' member)
        (ledger.later w' (waiting w' member) b has')
    · intro w' now
      cases now
    · intro w' now
      cases now
      exact ⟨fits, fun b has => Posted.number_lt_arrive has⟩
    · exact ledger.completed
  · refine ⟨rfl, rfl, rfl, ?_, ?_, fun number member => .inl member⟩
    · exact fun b => Posted.le_arrive (ledger.later w head b)
    · intro w' member
      rw [pend] at member
      rcases List.mem_cons.1 member with rfl | member
      · exact .inr fun b has => Posted.number_lt_arrive has
      · exact .inl member

/-- The blocks of a write reach the staging area. -/
theorem ssdTaskStage_write {m : Machine} {idx : SegIdx} {task : IoTask}
    (write : opCode task = MIX_WRITE) :
    m.ssdTaskStage idx task = m.ssdWriteStage (m.blocksAt task.buf) task.len idx := by
  have notRead : ¬ MIX_WRITE = MIX_READ := by decide
  simp only [Machine.ssdTaskStage, write_op write, if_neg notRead, if_true]

/-- A step that brings nothing to the SSD and counts nothing. -/
theorem Ledger.quiet (ledger : Ledger start writes N d onSsd) (m : d'.m = d.m)
    (worker : d'.worker = d.worker) (pend : d'.pend = d.pend)
    (completed : d'.completed = d.completed) (notStaged : ∀ w, d'.ssd ≠ .staged w)
    (notWritten : ∀ w, d'.ssd ≠ .written w) :
    ∃ onSsd', Ledger start writes N d' onSsd' ∧ Advances writes d d' onSsd onSsd' := by
  refine ⟨onSsd, ledger.keep (by rw [m]) (by rw [m]) pend ?_ ?_ ?_, worker, by rw [m], by rw [m],
    fun b => Nat.le_refl _, ?_, ?_⟩
  · exact fun w staged => absurd staged (notStaged w)
  · exact fun w written => absurd written (notWritten w)
  · rw [completed]
    exact fun number counted => .inl counted
  · rw [pend]
    exact fun w waits => .inl waits
  · rw [completed]
    exact fun number counted => .inl counted

/-- The write is in the staging area. -/
theorem Ledger.execute (requests : ∀ task ∈ writes, WriteTask task)
    (ledger : Ledger start writes N d onSsd) (at_ : d.ssd = .execute w)
    (stepped : d.ssdStep = some d') :
    ∃ onSsd', Ledger start writes N d' onSsd' ∧ Advances writes d d' onSsd onSsd' := by
  have pend : d.pend = w :: d.ssdQueue := by
    simp only [Device.pend, at_]
  have head : w ∈ d.pend := by
    rw [pend]
    exact List.mem_cons_self
  have write := (requests _ (List.mem_of_getElem? (ledger.posted w head).nth)).op
  simp only [Device.ssdStep, at_, ssdTaskStage_write write, Option.some.injEq] at stepped
  subst stepped
  refine ⟨onSsd, ledger.keep rfl rfl pend.symm ?_ ?_ fun number member => .inl member,
    rfl, rfl, rfl, fun b => Nat.le_refl _, ?_, fun number member => .inl member⟩
  · intro w' now j inside
    cases now
    show setBlocks d.m.memalignSrc _ _ _ _ = _
    rw [setBlocks_inside (Nat.le_add_right _ _) (by omega), Nat.add_sub_cancel_left]
    exact congrArg (fun mem : Mem => mem.load (w.task.buf + j * BLOCK_SIZE)) ledger.mem
  · intro w' now
    cases now
  · intro w' member
    rw [pend] at member
    exact .inl member

/-- The write is counted, and its blocks are on the SSD. -/
theorem Ledger.count (ledger : Ledger start writes N d onSsd) (at_ : d.ssd = .written w)
    (stepped : d.ssdStep = some d') :
    ∃ onSsd', Ledger start writes N d' onSsd' ∧ Advances writes d d' onSsd onSsd' := by
  have pend : d.pend = d.ssdQueue := by
    simp only [Device.pend, at_]
  obtain ⟨fits, arrived⟩ := ledger.written w at_
  simp only [Device.ssdStep, at_, Option.some.injEq] at stepped
  subst stepped
  refine ⟨onSsd, ledger.keep rfl rfl pend.symm ?_ ?_ ?_, rfl, rfl, rfl, fun b => Nat.le_refl _,
    ?_, ?_⟩
  · intro w' now
    cases now
  · intro w' now
    cases now
  · intro number member
    rcases List.mem_cons.1 member with rfl | old
    · exact .inr fits.below
    · exact .inl old
  · intro w' member
    rw [pend] at member
    exact .inl member
  · intro number member
    rcases List.mem_cons.1 member with rfl | old
    · exact .inr fun b covers => arrived b (fits.has_of_covers covers)
    · exact .inl old

theorem Ledger.ssdStep (requests : ∀ task ∈ writes, WriteTask task)
    (ledger : Ledger start writes N d onSsd) (stepped : d.ssdStep = some d') :
    ∃ onSsd', Ledger start writes N d' onSsd' ∧ Advances writes d d' onSsd onSsd' := by
  cases at_ : d.ssd with
  | poll =>
      cases queue : d.ssdQueue with
      | nil =>
          simp only [Device.ssdStep, at_, queue, Option.some.injEq] at stepped
          subst stepped
          exact ledger.quiet rfl rfl (by simp only [Device.pend, at_, queue]) rfl (by simp)
            (by simp)
      | cons w rest =>
          simp only [Device.ssdStep, at_, queue, Option.some.injEq] at stepped
          subst stepped
          exact ledger.quiet rfl rfl (by simp only [Device.pend, at_, queue]) rfl (by simp)
            (by simp)
  | dequeued w | foundEmpty =>
      simp only [Device.ssdStep, at_, Option.some.injEq] at stepped
      subst stepped
      exact ledger.quiet rfl rfl (by simp only [Device.pend, at_]) rfl (by simp) (by simp)
  | execute w => exact ledger.execute requests at_ stepped
  | staged w => exact ledger.flush at_ stepped
  | written w => exact ledger.count at_ stepped

end

/-! ## Blocks in the buffer and blocks on the SSD -/

/-- `live` are the blocks in the buffer, of version `buf`; `rest` those of them that the current
write is going to clear. -/
structure Tracked (start : Machine) (writes : List IoTask) (N : Nat) (d : Device)
    (onSsd buf : Nat → Nat) (live rest : Nat → Prop) : Prop where
  ledger : Ledger start writes N d onSsd
  /-- The SSD has the completed writes of the other blocks, or gets newer ones. -/
  dead : ∀ b, ¬ live b → ∀ number ∈ d.completed, Covers writes number b →
    Reaches d onSsd b (number + 1)
  newest : ∀ k, live k → ∀ number < N, Covers writes number k →
    number < buf k ∨ (number + 1 = N ∧ rest k)
  issued : ∀ k, live k → buf k ≤ d.worker.begun
  due : ∀ k, rest k → Reaches d onSsd k N

theorem Tracked.init (start : Machine) (writes : List IoTask) (live : Nat → Prop) :
    Tracked start writes 0 (.start start) (fun _ => 0) (fun _ => 0) live fun _ => False where
  ledger := .init start writes
  dead := fun _ _ => List.forall_mem_nil _
  newest := fun _ _ number below => absurd below (Nat.not_lt_zero number)
  issued := fun _ _ => Nat.le_refl 0
  due := fun _ waits => waits.elim

section

variable {start : Machine} {writes : List IoTask} {N : Nat} {d d' : Device} {onSsd buf : Nat → Nat}
  {live rest : Nat → Prop}

/-- **A step of the ssd_worker keeps track.** -/
theorem Tracked.ssdStep (requests : ∀ task ∈ writes, WriteTask task)
    (tracked : Tracked start writes N d onSsd buf live rest) (stepped : d.ssdStep = some d') :
    ∃ onSsd', Tracked start writes N d' onSsd' buf live rest ∧ d'.worker = d.worker ∧
      d'.m.md = d.m.md ∧ d'.m.nvm = d.m.nvm := by
  obtain ⟨onSsd', ledger, advances⟩ := tracked.ledger.ssdStep requests stepped
  have reaches : ∀ {b v}, Reaches d onSsd b v → Reaches d' onSsd' b v :=
    fun before => before.advance tracked.ledger advances
  refine ⟨onSsd', ⟨ledger, ?_, tracked.newest, ?_, ?_⟩, advances.worker, advances.md, advances.nvm⟩
  · intro b gone number member covers
    rcases advances.counts number member with old | arrived
    · exact reaches (tracked.dead b gone number old covers)
    · exact .inl (arrived b covers)
  · rw [advances.worker]
    exact tracked.issued
  · exact fun k waits => reaches (tracked.due k waits)

end

end Mixdk
