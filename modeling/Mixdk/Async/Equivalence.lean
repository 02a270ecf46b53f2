/-
# Async.Equivalence -- asynchronous execution is synchronous execution

A run of the workers that does all its work settles where the tasks lead that the
nvm_workers began, executed synchronously in the order they were begun
(`settled_of_run`).  Each nvm_worker begins its segment's tasks in scheduler order,
and tasks of different segments can be swapped (`syncTask_swap`), so they lead where
the scheduler's order leads (`async_eq_sync`).
-/
import Mixdk.Async.Settle
import Mathlib.Data.List.Pairwise

namespace Mixdk

open Transition Lanes

set_option autoImplicit false

/-! ## Tasks of different segments -/

/-- A task the index can hold, in a stripe of its segment. -/
def Fits (x : SegIdx × IoTask) : Prop := InRange x.2 ∧ InStripe x.1 x.2

/-- Neither task fills memory of the other. -/
def TasksApart (x y : SegIdx × IoTask) : Prop := (taskClaim x.2).Apart (taskClaim y.2)

instance : Std.Symm TasksApart where
  symm := fun _ _ apart => MemClaim.Apart.symm apart

section

variable {P : Nat} {m m' : Machine} {x y : SegIdx × IoTask}

theorem syncTask_eq_some : m.syncTask x = some m' ↔ ∃ md actions ret,
    nvmWorkerSsdTask m.md x.2 x.1 = .done md actions ret ∧
      m' = runAll Work.act (m.setMd md) ((works actions).map (Prod.mk x.1)) := by
  unfold Machine.syncTask
  cases nvmWorkerSsdTask m.md x.2 x.1 with
  | done md actions ret =>
      rw [Machine.syncFinish, syncActions_eq, Option.some.injEq, eq_comm]
      constructor
      · intro same
        exact ⟨md, actions, ret, rfl, same⟩
      · rintro ⟨md', actions', ret', eq, same⟩
        cases eq
        exact same
  | full | spins =>
      constructor
      · nofun
      · rintro ⟨_, _, _, eq, -⟩
        cases eq

theorem syncTask_running (running : Running P m) (fits : Fits x) (ran : m.syncTask x = some m') :
    Running P m' := by
  obtain ⟨md, actions, ret, done, rfl⟩ := syncTask_eq_some.1 ran
  obtain ⟨all, size⟩ := nvmWorkerSsdTask_allIndexed running.all fits.1 done
  exact ⟨by rw [runAll_md]; exact all, by rw [runAll_md]; exact size.trans running.perBlockNum⟩

theorem prepared_commute {i j : SegIdx} (other : i ≠ j) {t u : IoTask} {acts acts' : List Action}
    (left : Prepared P i t acts) (right : Prepared P j u acts')
    (apart : (taskClaim t).Apart (taskClaim u)) :
    ∀ a ∈ (works acts).map (Prod.mk i), ∀ b ∈ (works acts').map (Prod.mk j),
      Function.Commute (Work.act a) (Work.act b) := by
  intro a here b there
  obtain ⟨x, mine, rfl⟩ := List.mem_map.1 here
  obtain ⟨y, theirs, rfl⟩ := List.mem_map.1 there
  apply Work.commute other (left.inSegment x mine) (right.inSegment y theirs)
  have part := (left.within x mine).apart apart
  exact ((right.within y theirs).apart part.symm).symm

/-- **Tasks of different segments can be executed in either order.** -/
theorem syncTask_swap (running : Running P m) (fits : Fits x) (fits' : Fits y)
    (apart : TasksApart y x) (other : x.1 ≠ y.1)
    (ran : exec Machine.syncTask m [x, y] = some m') :
    exec Machine.syncTask m [y, x] = some m' := by
  obtain ⟨m₁, first, rest⟩ := exec_cons_eq_some.1 ran
  obtain ⟨m₂, second, last⟩ := exec_cons_eq_some.1 rest
  obtain rfl := Option.some.inj last
  obtain ⟨md₁, acts₁, ret₁, done₁, rfl⟩ := syncTask_eq_some.1 first
  obtain ⟨md₂, acts₂, ret₂, done₂, rfl⟩ := syncTask_eq_some.1 second
  rw [runAll_md, Machine.setMd_md] at done₂
  -- each task changes its own segment and does not look at the other's
  have here : md₁ = m.md.setSegment x.1 (md₁.segments x.1) := nvmWorkerSsdTask_done done₁
  have there : md₂ = md₁.setSegment y.1 (md₂.segments y.1) := nvmWorkerSsdTask_done done₂
  have size : m.md.perBlockNum = md₁.perBlockNum := by rw [here]; rfl
  have untouched : m.md.segments y.1 = md₁.segments y.1 := by
    rw [here, Metadata.setSegment_of_ne _ _ other.symm]
  have early : nvmWorkerSsdTask m.md y.2 y.1 =
      .done (m.md.setSegment y.1 (md₂.segments y.1)) acts₂ ret₂ := by
    rw [nvmWorkerSsdTask_onto size untouched, done₂, WriteResult.onto]
  have late : nvmWorkerSsdTask (m.md.setSegment y.1 (md₂.segments y.1)) x.2 x.1 =
      .done md₂ acts₁ ret₁ := by
    have kept : (m.md.setSegment y.1 (md₂.segments y.1)).segments x.1 = m.md.segments x.1 :=
      Metadata.setSegment_of_ne _ _ other
    have onto : nvmWorkerSsdTask (m.md.setSegment y.1 (md₂.segments y.1)) x.2 x.1 =
        (nvmWorkerSsdTask m.md x.2 x.1).onto (m.md.setSegment y.1 (md₂.segments y.1)) x.1 :=
      nvmWorkerSsdTask_onto (Metadata.setSegment_perBlockNum ..) kept x.2
    rw [onto, done₁, WriteResult.onto, ← Metadata.setSegment_comm _ other, ← here, ← there]
  -- and what the tasks do outside the index commutes
  have prepared₁ := nvmWorkerSsdTask_prepared running.all fits.1 fits.2 done₁
  have prepared₂ := nvmWorkerSsdTask_prepared running.all fits'.1 fits'.2 early
  have swap := runAll_swap (prepared_commute other prepared₁ prepared₂ apart.symm) (m.setMd md₂)
  refine exec_cons_eq_some.2 ⟨_, syncTask_eq_some.2 ⟨_, _, _, early, rfl⟩,
    exec_cons_eq_some.2 ⟨_, syncTask_eq_some.2 ⟨md₂, acts₁, ret₁, ?_, ?_⟩, rfl⟩⟩
  · rw [runAll_md]
    exact late
  · rw [← runAll_setMd, ← runAll_setMd, Machine.setMd_setMd, Machine.setMd_setMd,
      ← runAll_append, ← runAll_append]
    exact swap

/-! ## Runs -/

/-- A run settles where the tasks begun in it lead, executed synchronously; each segment's
tasks are begun in order. -/
theorem settled_of_run {capacity : Nat} {s s' : System} {threads : List Thread}
    (ready : s.Ready P) (ran : exec (System.step capacity) s threads = some s') :
    s'.Ready P ∧ ∃ begun, exec Machine.syncTask s.settled begun = some s'.settled ∧
      ∀ idx, (begun.filter fun x => x.1 = idx).map Prod.snd ++ s'.waiting idx = s.waiting idx := by
  induction threads generalizing s with
  | nil =>
      obtain rfl := Option.some.inj ran
      exact ⟨ready, [], rfl, fun _ => rfl⟩
  | cons thread threads ih =>
      obtain ⟨s₁, stepped, rest⟩ := exec_cons_eq_some.1 ran
      obtain ⟨ready₁, progress⟩ := ready.step stepped
      obtain ⟨ready', begun, sync, tasks⟩ := ih ready₁ rest
      refine ⟨ready', ?_⟩
      cases progress with
      | work settled waiting => exact ⟨begun, settled ▸ sync, waiting ▸ tasks⟩
      | @begins idx task _ later _ _ next waiting first =>
          refine ⟨(idx, task) :: begun, exec_cons_eq_some.2 ⟨_, first, sync⟩, ?_⟩
          intro j
          have here := tasks j
          rw [waiting] at here
          by_cases same : j = idx
          · subst same
            rw [Function.update_self] at here
            rw [List.filter_cons_of_pos (by simp), List.map_cons, List.cons_append, here, next]
          · rw [Function.update_of_ne same] at here
            have other : ¬ idx = j := fun eq => same eq.symm
            rw [List.filter_cons_of_neg (by simpa using other), here]

/-! ## The tasks of a list of requests -/

/-- The request lies inside the SSD. -/
def InSsd (request : IoTask) : Prop := request.offset + request.len ≤ SSD_BLOCK_NUM

instance (request : IoTask) : Decidable (InSsd request) :=
  inferInstanceAs (Decidable (_ ≤ _))

/-- The tasks the scheduler posts for the requests, one request after the other. -/
def subtasks (requests : List IoTask) : List (SegIdx × IoTask) :=
  requests.flatMap mixPostTaskToBuffer

theorem postTask_within {request x : IoTask} {b len : Nat} (piece : x = postTask request b len)
    (low : request.offset ≤ b) (high : b + len ≤ request.offset + request.len) :
    (taskClaim x).Within (taskClaim request) := by
  subst piece
  refine .inr ⟨fun dst => dst, Nat.le_add_right _ _, ?_⟩
  change request.buf + (b - request.offset) * BLOCK_SIZE + len * BLOCK_SIZE ≤
    request.buf + request.len * BLOCK_SIZE
  rw [Nat.add_assoc, ← Nat.add_mul]
  exact block_le (by omega)

theorem subtasks_fit {requests : List IoTask} (inSsd : ∀ r ∈ requests, InSsd r) :
    ∀ x ∈ subtasks requests, Fits x := by
  intro x member
  obtain ⟨request, there, inside⟩ := List.mem_flatMap.1 member
  obtain ⟨b, len, rfl, -, low, high, stripe⟩ := (mixPostTaskToBuffer_splits request).member inside
  refine ⟨⟨stripe.some_block, ?_⟩, stripe⟩
  have bound := inSsd request there
  change b + len ≤ NO_ENTRY
  simp only [InSsd, SSD_BLOCK_NUM, NO_ENTRY] at *
  omega

/-- The tasks of one request use different parts of its buffer. -/
theorem request_apart (request : IoTask) : (mixPostTaskToBuffer request).Pairwise TasksApart := by
  have splits := mixPostTaskToBuffer_splits request
  refine splits.pairwise.imp_of_mem ?_
  intro x y here there ordered _
  obtain ⟨b, len, rfl, -, low, -⟩ := splits.member here
  obtain ⟨b', len', rfl, -, low', -⟩ := splits.member there
  refine .inr (.inr (.inl ?_))
  change request.buf + (b - request.offset) * BLOCK_SIZE + len * BLOCK_SIZE ≤
    request.buf + (b' - request.offset) * BLOCK_SIZE
  have ordered : b + len ≤ b' := ordered
  rw [Nat.add_assoc, ← Nat.add_mul]
  exact block_le (by omega)

theorem subtasks_apart {requests : List IoTask}
    (apart : requests.Pairwise fun r r' => (taskClaim r).Apart (taskClaim r')) :
    (subtasks requests).Pairwise TasksApart := by
  refine List.pairwise_flatMap.2 ⟨fun request _ => request_apart request, apart.imp ?_⟩
  intro r r' separate x here y there
  obtain ⟨b, len, rfl, -, low, high, -⟩ := (mixPostTaskToBuffer_splits r).member here
  obtain ⟨b', len', rfl, -, low', high', -⟩ := (mixPostTaskToBuffer_splits r').member there
  have left := (postTask_within rfl low high).apart separate
  exact ((postTask_within rfl low' high').apart left.symm).symm

/-! ## Equivalence -/

/-- At the start nothing is begun, and the tasks are those to come. -/
theorem start_ready (running : Running P m) {tasks : List (SegIdx × IoTask)}
    (fits : ∀ x ∈ tasks, Fits x) (apart : tasks.Pairwise TasksApart) :
    (System.start m tasks).Ready P := by
  have member : ∀ {idx t}, t ∈ (System.start m tasks).waiting idx → (idx, t) ∈ tasks := by
    intro idx t inside
    obtain ⟨x, kept, rfl⟩ := List.mem_map.1 inside
    obtain ⟨there, same⟩ := List.mem_filter.1 kept
    rwa [← of_decide_eq_true same]
  refine ⟨running, ⟨nofun, ?_, fun _ => .nil, nofun, ?_, ?_⟩⟩
  · exact fun idx t inside => fits _ (member inside)
  · intro idx
    exact List.pairwise_map.2 (apart.filter _)
  · intro i j other c here d there
    obtain ⟨t, inside, rfl⟩ := List.mem_map.1 here
    obtain ⟨u, inside', rfl⟩ := List.mem_map.1 there
    have different : (i, t) ≠ (j, u) := fun eq => other (Prod.mk.inj eq).1
    exact apart.forall (member inside) (member inside') different

theorem filter_eq_of_map {xs ys : List (SegIdx × IoTask)} {idx : SegIdx}
    (same : (xs.filter fun x => x.1 = idx).map Prod.snd =
      (ys.filter fun x => x.1 = idx).map Prod.snd) :
    (xs.filter fun x => x.1 = idx) = ys.filter fun x => x.1 = idx := by
  have back : ∀ zs : List (SegIdx × IoTask),
      (zs.filter fun x => x.1 = idx) =
        ((zs.filter fun x => x.1 = idx).map Prod.snd).map (Prod.mk idx) := by
    intro zs
    rw [List.map_map]
    refine (List.map_id _).symm.trans (List.map_congr_left ?_)
    intro x kept
    have here := of_decide_eq_true (List.mem_filter.1 kept).2
    rw [Function.comp_apply, ← here]
    rfl
  rw [back xs, back ys, same]

theorem settled_idle {s : System} (idle : s.Idle) :
    s.settled = s.m ∧ ∀ idx, s.waiting idx = [] := by
  obtain ⟨todo, lanes⟩ := idle
  constructor
  · apply settle_nil
    intro idx _
    change (s.lane idx).works = []
    rw [lanes idx]
    rfl
  · intro idx
    rw [System.waiting, lanes idx, todo]
    rfl

/-- **Whatever the interleaving, a run that does all its work ends in the machine in which the
tasks end when executed one by one, with each SSD task done when it is posted.** -/
theorem async_eq_sync {blockNum : Nat} (word : blockNum < 2 ^ 32)
    (some_block : 0 < blockNum / SEGMENT_NUM) {start : Machine}
    (fresh : start.md = mixMetadataInit blockNum) {ops : List Operation}
    (reached : exec Machine.operate start ops = some m) {requests : List IoTask}
    (inSsd : ∀ r ∈ requests, InSsd r)
    (apart : requests.Pairwise fun r r' => (taskClaim r).Apart (taskClaim r')) {capacity : Nat}
    {threads : List Thread} {s : System}
    (ran : exec (System.step capacity) (System.start m (subtasks requests)) threads = some s)
    (idle : s.Idle) : exec Machine.syncTask m (subtasks requests) = some s.m := by
  have running := (Running.init word fresh).exec some_block reached
  have fits := subtasks_fit inSsd
  have separate := subtasks_apart apart
  have ready := start_ready running fits separate
  obtain ⟨-, begun, sync, tasks⟩ := settled_of_run ready ran
  obtain ⟨settled, empty⟩ := settled_idle idle
  have atStart : (System.start m (subtasks requests)).settled = m := settle_nil (fun _ _ => rfl) m
  rw [settled, atStart] at sync
  have order : ∀ idx, (begun.filter fun x => x.1 = idx) =
      (subtasks requests).filter fun x => x.1 = idx := by
    intro idx
    apply filter_eq_of_map
    have queued := tasks idx
    rw [empty idx, List.append_nil] at queued
    exact queued
  have preserved : ∀ m x m', Running (blockNum / SEGMENT_NUM) m → Fits x →
      m.syncTask x = some m' → Running (blockNum / SEGMENT_NUM) m' :=
    fun _ _ _ before fits stepped => syncTask_running before fits stepped
  exact exec_of_lanes preserved
    (fun _ _ _ _ before here there apart other both =>
      syncTask_swap before here there apart other both)
    fits separate order running sync

end

/-! ## A run -/

/-- A small write, a large write over it, and a read of both into other memory. -/
def writeWriteRead : List IoTask :=
  [writeTask 3 1, writeTask 2 3, { writeTask 2 3 with buf := 65536, opcode := MIX_READ }]

/-- The ssd_worker starts when the nvm_worker of its segment has done everything. -/
def ssdLast : List Thread :=
  List.replicate 5 .scheduler ++ List.replicate 10 (.nvm (segmentOf 0)) ++
    List.replicate 6 (.ssd (segmentOf 0)) ++ List.replicate 6 (.nvm (segmentOf 4))

theorem ssdLast_sync : ∃ s,
    exec (System.step 4) (System.start smallBuffer (subtasks writeWriteRead)) ssdLast = some s ∧
      s.Idle ∧ exec Machine.syncTask smallBuffer (subtasks writeWriteRead) = some s.m := by
  have run : (exec (System.step 4) (System.start smallBuffer (subtasks writeWriteRead))
      ssdLast).any (fun s => decide s.Idle) = true := by decide +kernel
  obtain ⟨s, ran, idle⟩ := (Option.any_eq_true _ _).1 run
  refine ⟨s, ran, of_decide_eq_true idle, ?_⟩
  have inSsd : ∀ r ∈ writeWriteRead, InSsd r := by decide
  have apart : writeWriteRead.Pairwise fun r r' => (taskClaim r).Apart (taskClaim r') := by
    decide
  exact async_eq_sync (show 32 < 2 ^ 32 by decide) (by decide) rfl (exec_nil smallBuffer) inSsd
    apart ran (of_decide_eq_true idle)

end Mixdk
