/-
# Core.Task -- requests, blocks and the C integers they travel in

`io_task_t` is the request record every queue of MIXDK carries.  Pointers are
byte addresses of the caller's memory (`Mem`); a block is 4096 bytes.  Sizes and
offsets are natural numbers; where the C code passes one through a narrower
integer that can lose it, the model says so with `u32`, `toInt32` or `ofInt32`,
and an `int` that is counted up and down is an `Int32`.
-/
import Mathlib.Logic.Function.Basic
import Mathlib.Tactic.Ring

namespace Mixdk

set_option autoImplicit false

def BLOCK_SIZE : Nat := 4096
def SEGMENT_NUM : Nat := 4
/-- Blocks of the SSD, `ssd_info->block_num`. -/
def SSD_BLOCK_NUM : Nat := 100 * 1024 * 1024

/-- Index of a segment, and of the `buffer_queue`, `ssd_queue`, `nvm_worker` and
`ssd_worker` that serve it: `SEGMENT_NUM`, `BUFFER_QUEUE_NUM`, `NVM_QUEUE_NUM`
and `SSD_QUEUE_NUM` are all 4. -/
abbrev SegIdx := Fin 4

/-! ## C integers -/

/-- Conversion to `uint32_t`. -/
def u32 (n : Nat) : Nat := n % 2 ^ 32

/-- `uint32_t` to `int`. -/
def toInt32 (n : Nat) : Int := Int.bmod n (2 ^ 32)

/-- `int` to `uint32_t`. -/
def ofInt32 (z : Int) : Nat := (z % 2 ^ 32).toNat

theorem u32_of_lt {n : Nat} (small : n < 2 ^ 32) : u32 n = n := Nat.mod_eq_of_lt small

theorem toInt32_of_lt {n : Nat} (small : n < 2 ^ 31) : toInt32 n = n := by
  unfold toInt32
  rw [Int.bmod_def]
  omega

theorem ofInt32_of_lt {n : Nat} (small : n < 2 ^ 32) : ofInt32 n = n := by
  unfold ofInt32
  omega

/-! An `int` goes round at the ends of its range. -/

theorem toInt_add_one {x : Int32} (small : x.toInt + 1 < 2 ^ 31) :
    (x + 1).toInt = x.toInt + 1 := by
  have low := x.le_toInt
  rw [Int32.toInt_add, Int32.toInt_one]
  exact Int.bmod_eq_of_le (by omega) (by omega)

theorem toInt_sub_one {x : Int32} (large : -2 ^ 31 < x.toInt) :
    (x - 1).toInt = x.toInt - 1 := by
  have high := x.toInt_lt
  rw [Int32.toInt_sub, Int32.toInt_one]
  exact Int.bmod_eq_of_le (by omega) (by omega)

theorem int32_pos_iff {x : Int32} : 0 < x ↔ 0 < x.toInt := by
  rw [Int32.lt_iff_toInt_lt, Int32.toInt_zero]

/-! ## Memory -/

/-- The content of one block. -/
abbrev Block := Fin BLOCK_SIZE → UInt8

/-- The callers' memory, byte by byte. -/
abbrev Mem := Nat → UInt8

namespace Mem

/-- The block of bytes at address `p`. -/
def load (m : Mem) (p : Nat) : Block := fun j => m (p + j)

end Mem

/-! ## Tasks -/

def MIX_READ : Nat := 1
def MIX_WRITE : Nat := 1 <<< 2
def MIX_CLEAR : Nat := 1 <<< 6

def NVM_TASK : Nat := 1
def SSD_TASK : Nat := 2

/-- `io_task_t`: `buf` and `ret` are addresses, `offset` and `len` count blocks. -/
structure IoTask where
  buf : Nat
  len : Nat
  offset : Nat
  ret : Nat
  opcode : Nat
  type : Nat
  queueIdx : Nat
deriving DecidableEq, Repr

end Mixdk
