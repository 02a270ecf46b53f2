/-
# Async.Effects -- what the workers' operations touch

An nvm_worker and an ssd_worker act on the machine by actions and by halves of SSD
tasks (`Work`).  Each has a footprint: the records and blocks of a segment's part of
the buffer, the stripes of a segment on the SSD and its slots of the staging areas,
and a range of the callers' memory (`MemClaim`).  The counters are tallies.

So two operations commute when they are of different segments, or when one is an
nvm_worker's and the other an ssd_worker's, as long as neither reads into memory the
other uses (`Work.commute`, `Work.commute_action`).
-/
import Mixdk.Core.Worker
import Mixdk.Lib.Footprint
import Mathlib.Algebra.Group.Pi.Basic
import Mathlib.Algebra.Group.Prod

namespace Mixdk

open Footprint

set_option autoImplicit false

/-! ## Locations -/

/-- A location of the machine. -/
inductive Loc
  /-- `per_block_num` -/
  | perBlockNum
  | segment (idx : SegIdx)
  /-- A block at `buffer_addr`. -/
  | data (b : Nat)
  /-- A record at `meta_addr`. -/
  | record (b : Nat)
  | ssd (b : Nat)
  | mem (a : Nat)
  | memalignSrc (k : Nat)
  | memalignDst (k : Nat)
  | migrateBuf (t : Nat)

def Loc.Value : Loc → Type
  | .perBlockNum => Nat
  | .segment _ => Segment
  | .record _ => BufferMeta
  | .mem _ => UInt8
  | .data _ | .ssd _ | .memalignSrc _ | .memalignDst _ | .migrateBuf _ => Block

def Machine.get (l : Loc) (m : Machine) : l.Value :=
  match l with
  | .perBlockNum => m.md.perBlockNum
  | .segment idx => m.md.segments idx
  | .data b => m.nvm.data b
  | .record b => m.nvm.metas b
  | .ssd b => m.ssd b
  | .mem a => m.mem a
  | .memalignSrc k => m.memalignSrc k
  | .memalignDst k => m.memalignDst k
  | .migrateBuf t => m.migrateBuf t

/-- The counters: the read counters and the two counters of completed writes. -/
def Machine.counters (m : Machine) : (Nat → Nat) × Nat × Nat :=
  (m.ret, m.completedNvmWriteBlockNum, m.completedSsdWriteBlockNum)

theorem Machine.ext_get {m m' : Machine} (get : ∀ l, m.get l = m'.get l)
    (tallies : m.counters = m'.counters) : m = m' := by
  obtain ⟨⟨size, segments⟩, ⟨data, metas⟩, ssd, mem, src, dst, buf, ret, nvmNum, ssdNum⟩ := m
  obtain ⟨⟨size', segments'⟩, ⟨data', metas'⟩, ssd', mem', src', dst', buf', ret', nvmNum',
    ssdNum'⟩ := m'
  simp only [counters, Prod.mk.injEq] at tallies
  obtain ⟨rfl, rfl, rfl⟩ := tallies
  obtain rfl : size = size' := get .perBlockNum
  obtain rfl : segments = segments' := funext fun idx => get (.segment idx)
  obtain rfl : data = data' := funext fun b => get (.data b)
  obtain rfl : metas = metas' := funext fun b => get (.record b)
  obtain rfl : ssd = ssd' := funext fun b => get (.ssd b)
  obtain rfl : mem = mem' := funext fun a => get (.mem a)
  obtain rfl : src = src' := funext fun k => get (.memalignSrc k)
  obtain rfl : dst = dst' := funext fun k => get (.memalignDst k)
  obtain rfl : buf = buf' := funext fun t => get (.migrateBuf t)
  rfl

/-- The machine by locations. -/
def machineView : View Machine Loc ((Nat → Nat) × Nat × Nat) where
  Value := Loc.Value
  get := Machine.get
  tally := Machine.counters
  ext := fun _ _ => Machine.ext_get

/-- `n` blocks of memory at address `p`. -/
def memRange (p n : Nat) : Set Loc := {l | ∃ a, l = .mem a ∧ p ≤ a ∧ a < p + n * BLOCK_SIZE}

def ssdRange (b n : Nat) : Set Loc := {l | ∃ k, l = .ssd k ∧ b ≤ k ∧ k < b + n}

def srcRange (b n : Nat) : Set Loc := {l | ∃ k, l = .memalignSrc k ∧ b ≤ k ∧ k < b + n}

def dstRange (b n : Nat) : Set Loc := {l | ∃ k, l = .memalignDst k ∧ b ≤ k ∧ k < b + n}

/-! ## Footprints of the operations -/

theorem setBlocks_inside {f : Nat → Block} {p n : Nat} {src : Nat → Block} {b : Nat}
    (low : p ≤ b) (high : b < p + n) : setBlocks f p n src b = src (b - p) :=
  if_pos ⟨low, high⟩

theorem setBlocks_outside {f : Nat → Block} {p n : Nat} {src : Nat → Block} {b : Nat}
    (outside : ¬ (p ≤ b ∧ b < p + n)) : setBlocks f p n src b = f b :=
  if_neg outside

theorem Mem.storeBlocks_inside {m : Mem} {p n : Nat} {src : Nat → Block} {a : Nat}
    (low : p ≤ a) (high : a < p + n * BLOCK_SIZE) :
    m.storeBlocks p n src a =
      src ((a - p) / BLOCK_SIZE) ⟨(a - p) % BLOCK_SIZE, Nat.mod_lt _ (by decide)⟩ :=
  if_pos ⟨low, high⟩

theorem Mem.storeBlocks_outside {m : Mem} {p n : Nat} {src : Nat → Block} {a : Nat}
    (outside : ¬ (p ≤ a ∧ a < p + n * BLOCK_SIZE)) : m.storeBlocks p n src a = m a :=
  if_neg outside

/-- One range after another. -/
theorem setBlocks_add (f : Nat → Block) (p n k : Nat) (src : Nat → Block) :
    setBlocks (setBlocks f p n src) (p + n) k (fun j => src (n + j)) = setBlocks f p (n + k) src := by
  funext b
  by_cases late : p + n ≤ b ∧ b < p + n + k
  · have place : n + (b - (p + n)) = b - p := by omega
    rw [setBlocks_inside late.1 late.2, setBlocks_inside (by omega) (by omega), place]
  · rw [setBlocks_outside late]
    by_cases early : p ≤ b ∧ b < p + n
    · rw [setBlocks_inside early.1 early.2, setBlocks_inside (by omega) (by omega)]
    · rw [setBlocks_outside early, setBlocks_outside (by omega)]

theorem Mem.storeBlocks_add (m : Mem) (p n k : Nat) (src : Nat → Block) :
    (m.storeBlocks p n src).storeBlocks (p + n * BLOCK_SIZE) k (fun j => src (n + j)) =
      m.storeBlocks p (n + k) src := by
  have both : (n + k) * BLOCK_SIZE = n * BLOCK_SIZE + k * BLOCK_SIZE := Nat.add_mul ..
  funext a
  by_cases late : p + n * BLOCK_SIZE ≤ a ∧ a < p + n * BLOCK_SIZE + k * BLOCK_SIZE
  · have place : a - p = n * BLOCK_SIZE + (a - (p + n * BLOCK_SIZE)) := by omega
    have block : (a - p) / BLOCK_SIZE = n + (a - (p + n * BLOCK_SIZE)) / BLOCK_SIZE := by
      rw [place, Nat.mul_comm, Nat.mul_add_div (by decide)]
    have byte : (a - p) % BLOCK_SIZE = (a - (p + n * BLOCK_SIZE)) % BLOCK_SIZE := by
      rw [place, Nat.mul_comm, Nat.mul_add_mod]
    rw [storeBlocks_inside late.1 late.2, storeBlocks_inside (by omega) (by omega)]
    simp only [block, byte]
  · rw [storeBlocks_outside late]
    by_cases early : p ≤ a ∧ a < p + n * BLOCK_SIZE
    · rw [storeBlocks_inside early.1 early.2, storeBlocks_inside (by omega) (by omega)]
    · rw [storeBlocks_outside early, storeBlocks_outside (by omega)]

theorem setBlocks_zero (f : Nat → Block) (p : Nat) (src : Nat → Block) : setBlocks f p 0 src = f := by
  funext b
  exact setBlocks_outside (by omega)

theorem Mem.storeBlocks_zero (m : Mem) (p : Nat) (src : Nat → Block) : m.storeBlocks p 0 src = m := by
  funext a
  exact storeBlocks_outside (by omega)

/-- Block `j` of a range of memory depends on that range alone. -/
theorem load_congr {m m' : Machine} {p n j : Nat} (inside : j < n)
    (same : ∀ l ∈ memRange p n, m.get l = m'.get l) :
    m.mem.load (p + j * BLOCK_SIZE) = m'.mem.load (p + j * BLOCK_SIZE) := by
  funext i
  have small := i.isLt
  have bound : j * BLOCK_SIZE + BLOCK_SIZE ≤ n * BLOCK_SIZE := by
    rw [← Nat.succ_mul]
    exact Nat.mul_le_mul_right _ inside
  exact same (.mem (p + j * BLOCK_SIZE + i)) ⟨_, rfl, by omega, by omega⟩

theorem div_block_lt {a p n : Nat} (high : a < p + n * BLOCK_SIZE) (low : p ≤ a) :
    (a - p) / BLOCK_SIZE < n := by
  apply Nat.div_lt_of_lt_mul
  rw [Nat.mul_comm]
  omega

theorem Mem.storeBlocks_congr (m : Mem) (p : Nat) {n : Nat} {src src' : Nat → Block}
    (same : ∀ j < n, src j = src' j) : m.storeBlocks p n src = m.storeBlocks p n src' := by
  funext a
  by_cases inside : p ≤ a ∧ a < p + n * BLOCK_SIZE
  · rw [storeBlocks_inside inside.1 inside.2, storeBlocks_inside inside.1 inside.2,
      same _ (div_block_lt inside.2 inside.1)]
  · rw [storeBlocks_outside inside, storeBlocks_outside inside]

/-- Storing one block more. -/
theorem Mem.storeBlocks_succ (mem : Mem) (dst n : Nat) (blocks : Nat → Block) :
    mem.storeBlocks dst (n + 1) blocks =
      (mem.storeBlocks dst n blocks).storeBlocks (dst + n * BLOCK_SIZE) 1 fun _ => blocks n := by
  rw [← storeBlocks_add]
  apply storeBlocks_congr
  intro j one
  rw [Nat.lt_one_iff.1 one, Nat.add_zero]

theorem touches_readFromBuffer (dst b : Nat) :
    Touches machineView (fun m => m.perform (.readFromBuffer dst b)) {.data b}
      (memRange dst 1) where
  frame := by
    intro m l outside
    cases l with
    | mem a =>
        change m.mem.storeBlocks dst 1 (fun _ => m.nvm.data b) a = m.mem a
        apply Mem.storeBlocks_outside
        intro inside
        exact outside ⟨a, rfl, inside.1, inside.2⟩
    | perBlockNum | segment idx | data b | record b | ssd b | memalignSrc k | memalignDst k
    | migrateBuf t => rfl
  depends := by
    rintro m m' same l ⟨a, rfl, low, high⟩
    have data : m.nvm.data b = m'.nvm.data b := same (.data b) rfl
    change m.mem.storeBlocks dst 1 (fun _ => m.nvm.data b) a =
      m'.mem.storeBlocks dst 1 (fun _ => m'.nvm.data b) a
    rw [Mem.storeBlocks_inside low high, Mem.storeBlocks_inside low high, data]
  adds := ⟨0, fun m => (add_zero _).symm⟩

theorem touches_writeToBuffer (src srcBlock b flags : Nat) :
    Touches machineView (fun m => m.perform (.writeToBuffer src srcBlock b flags))
      (memRange src 1) {.data b, .record b} where
  frame := by
    intro m l outside
    cases l with
    | data c =>
        apply Function.update_of_ne
        rintro rfl
        exact outside (.inl rfl)
    | record c =>
        apply Function.update_of_ne
        rintro rfl
        exact outside (.inr rfl)
    | perBlockNum | segment idx | mem a | ssd b | memalignSrc k | memalignDst k | migrateBuf t =>
        rfl
  depends := by
    rintro m m' same l (rfl | rfl)
    · have loaded := load_congr (j := 0) Nat.one_pos same
      rw [Nat.zero_mul, Nat.add_zero] at loaded
      change Function.update m.nvm.data b (m.mem.load src) b =
        Function.update m'.nvm.data b (m'.mem.load src) b
      rw [Function.update_self, Function.update_self, loaded]
    · change Function.update m.nvm.metas b ⟨1, 0, srcBlock, flags⟩ b =
        Function.update m'.nvm.metas b ⟨1, 0, srcBlock, flags⟩ b
      rw [Function.update_self, Function.update_self]
  adds := ⟨0, fun m => (add_zero _).symm⟩

theorem touches_bufferClear (b : Nat) :
    Touches machineView (fun m => m.perform (.bufferClear b)) {.record b} {.record b} where
  frame := by
    intro m l outside
    cases l with
    | record c =>
        apply Function.update_of_ne
        rintro rfl
        exact outside rfl
    | perBlockNum | segment idx | mem a | data b | ssd b | memalignSrc k | memalignDst k
    | migrateBuf t => rfl
  depends := by
    rintro m m' same l rfl
    have record : m.nvm.metas b = m'.nvm.metas b := same (.record b) rfl
    change Function.update m.nvm.metas b { m.nvm.metas b with status := 0 } b =
      Function.update m'.nvm.metas b { m'.nvm.metas b with status := 0 } b
    rw [Function.update_self, Function.update_self, record]
  adds := ⟨0, fun m => (add_zero _).symm⟩

theorem touches_addRet (ret n : Nat) : Touches machineView (fun m => m.addRet ret n) ∅ ∅ where
  frame := by
    intro m l _
    cases l <;> rfl
  depends := fun _ _ _ _ member => member.elim
  adds := by
    refine ⟨(Pi.single ret n, 0, 0), ?_⟩
    intro m
    apply Prod.ext
    · funext a
      change Function.update m.ret ret (m.ret ret + n) a = m.ret a + (Pi.single ret n : Nat → Nat) a
      by_cases here : a = ret
      · subst here
        rw [Function.update_self, Pi.single_eq_same]
      · rw [Function.update_of_ne here, Pi.single_eq_of_ne here, Nat.add_zero]
    · rfl

theorem touches_nvmWriteBlockCompleted (n : Nat) :
    Touches machineView (fun m => m.perform (.nvmWriteBlockCompleted n)) ∅ ∅ where
  frame := by
    intro m l _
    cases l <;> rfl
  depends := fun _ _ _ _ member => member.elim
  adds := ⟨(0, n, 0), fun m => rfl⟩

theorem touches_ssdReadStage (len offset : Nat) :
    Touches machineView (fun m => m.ssdReadStage len offset) (ssdRange offset len)
      (dstRange (stagingBlock (readSlot offset)) len) where
  frame := by
    intro m l outside
    cases l with
    | memalignDst k =>
        change setBlocks m.memalignDst (stagingBlock (readSlot offset)) len
          (fun j => m.ssd (offset + j)) k = m.memalignDst k
        apply setBlocks_outside
        intro inside
        exact outside ⟨k, rfl, inside.1, inside.2⟩
    | perBlockNum | segment idx | mem a | data b | record b | ssd b | memalignSrc k
    | migrateBuf t => rfl
  depends := by
    rintro m m' same l ⟨k, rfl, low, high⟩
    change setBlocks m.memalignDst (stagingBlock (readSlot offset)) len
        (fun j => m.ssd (offset + j)) k =
      setBlocks m'.memalignDst (stagingBlock (readSlot offset)) len
        (fun j => m'.ssd (offset + j)) k
    rw [setBlocks_inside low high, setBlocks_inside low high]
    exact same (.ssd _) ⟨_, rfl, by omega, by omega⟩
  adds := ⟨0, fun m => (add_zero _).symm⟩

theorem touches_ssdWriteStage (buf len idx : Nat) :
    Touches machineView (fun m => m.ssdWriteStage (m.blocksAt buf) len idx) (memRange buf len)
      (srcRange (stagingBlock idx) len) where
  frame := by
    intro m l outside
    cases l with
    | memalignSrc k =>
        apply setBlocks_outside
        intro inside
        exact outside ⟨k, rfl, inside.1, inside.2⟩
    | perBlockNum | segment idx | mem a | data b | record b | ssd b | memalignDst k
    | migrateBuf t => rfl
  depends := by
    rintro m m' same l ⟨k, rfl, low, high⟩
    change setBlocks m.memalignSrc (stagingBlock idx) len (m.blocksAt buf) k =
      setBlocks m'.memalignSrc (stagingBlock idx) len (m'.blocksAt buf) k
    rw [setBlocks_inside low high, setBlocks_inside low high]
    exact load_congr (by omega) same
  adds := ⟨0, fun m => (add_zero _).symm⟩

theorem touches_ssdReadCopy (dst len offset : Nat) :
    Touches machineView (fun m => m.ssdReadCopy dst len offset)
      (dstRange (stagingBlock (readSlot offset)) len) (memRange dst len) where
  frame := by
    intro m l outside
    cases l with
    | mem a =>
        change m.mem.storeBlocks dst len
          (fun j => m.memalignDst (stagingBlock (readSlot offset) + j)) a = m.mem a
        apply Mem.storeBlocks_outside
        intro inside
        exact outside ⟨a, rfl, inside.1, inside.2⟩
    | perBlockNum | segment idx | data b | record b | ssd b | memalignSrc k | memalignDst k
    | migrateBuf t => rfl
  depends := by
    rintro m m' same l ⟨a, rfl, low, high⟩
    change m.mem.storeBlocks dst len
        (fun j => m.memalignDst (stagingBlock (readSlot offset) + j)) a =
      m'.mem.storeBlocks dst len
        (fun j => m'.memalignDst (stagingBlock (readSlot offset) + j)) a
    rw [Mem.storeBlocks_inside low high, Mem.storeBlocks_inside low high]
    have block := div_block_lt high low
    have staged : m.memalignDst (stagingBlock (readSlot offset) + (a - dst) / BLOCK_SIZE) =
        m'.memalignDst (stagingBlock (readSlot offset) + (a - dst) / BLOCK_SIZE) :=
      same (.memalignDst _) ⟨_, rfl, Nat.le_add_right _ _, Nat.add_lt_add_left block _⟩
    simp only [staged]
  adds := ⟨0, fun m => (add_zero _).symm⟩

theorem touches_ssdWriteFlush (len offset idx : Nat) :
    Touches machineView (fun m => m.ssdWriteFlush len offset idx)
      (srcRange (stagingBlock idx) len) (ssdRange offset len) where
  frame := by
    intro m l outside
    cases l with
    | ssd b =>
        change setBlocks m.ssd offset len (fun j => m.memalignSrc (stagingBlock idx + j)) b =
          m.ssd b
        apply setBlocks_outside
        intro inside
        exact outside ⟨b, rfl, inside.1, inside.2⟩
    | perBlockNum | segment idx | mem a | data b | record b | memalignSrc k | memalignDst k
    | migrateBuf t => rfl
  depends := by
    rintro m m' same l ⟨k, rfl, low, high⟩
    change setBlocks m.ssd offset len (fun j => m.memalignSrc (stagingBlock idx + j)) k =
      setBlocks m'.ssd offset len (fun j => m'.memalignSrc (stagingBlock idx + j)) k
    rw [setBlocks_inside low high, setBlocks_inside low high]
    exact same (.memalignSrc _) ⟨_, rfl, by omega, by omega⟩
  adds := ⟨0, fun m => (add_zero _).symm⟩

theorem touches_ssdWriteBlockCompleted (n : Nat) :
    Touches machineView (fun m =>
      { m with completedSsdWriteBlockNum := m.completedSsdWriteBlockNum + n }) ∅ ∅ where
  frame := by
    intro m l _
    cases l <;> rfl
  depends := fun _ _ _ _ member => member.elim
  adds := ⟨(0, 0, n), fun m => rfl⟩

end Mixdk
