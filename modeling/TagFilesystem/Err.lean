import Mathlib.Data.BitVec
import Mathlib.Tactic.SplitIfs

/-!
# Errors in pointers

A function that returns a pointer returns an error as a pointer too: `fuse/` with the macros of
`include/err.h`, `fuse_sqlite3/` with macros of its own. Pointers and `long` have 64 bits, an `int`
has 32.
-/

namespace TagFilesystem

abbrev Pointer := BitVec 64

/-- An address that `malloc` gives out, in the lower half of the address space. -/
structure Address where
  pointer : Pointer
  user : pointer.toNat < 2 ^ 47
  deriving DecidableEq

/-- What is left in `errno`. -/
structure Errno where
  code : ℤ
  pos : 0 < code
  le : code ≤ 4095
  deriving DecidableEq

namespace Errno

/-- `errno` and `-errno` as an `int`. -/
def int (e : Errno) : BitVec 32 := BitVec.ofInt 32 e.code

theorem toInt_int (e : Errno) : e.int.toInt = e.code := by
  have hpos := e.pos
  have hle := e.le
  rw [int, BitVec.toInt_ofInt]
  apply Int.bmod_eq_of_le <;> omega

theorem toInt_neg_int (e : Errno) : (-e.int).toInt = -e.code := by
  have hpos := e.pos
  have hle := e.le
  rw [int, ← BitVec.ofInt_neg, BitVec.toInt_ofInt]
  apply Int.bmod_eq_of_le <;> omega

end Errno

namespace Err

def maxErrno : ℕ := 4095

def errPtr (error : BitVec 64) : Pointer := error

def ptrErr (ptr : Pointer) : BitVec 64 := ptr

def isErr (ptr : Pointer) : Bool := -BitVec.ofNat 64 maxErrno ≤ ptr

theorem toNat_errPtr (e : Errno) : (errPtr ((-e.int).signExtend 64)).toNat = 2 ^ 64 - e.code.toNat := by
  have hpos := e.pos
  have hle := e.le
  have hval := Errno.toInt_neg_int e
  have hext : ((-e.int).signExtend 64).toInt = -e.code := by
    rw [BitVec.toInt_signExtend_of_le (by decide), hval]
  have hlt := ((-e.int).signExtend 64).isLt
  rw [BitVec.toInt_eq_toNat_cond] at hext
  unfold errPtr
  split_ifs at hext
  · omega
  · omega

theorem isErr_errPtr (e : Errno) : isErr (errPtr ((-e.int).signExtend 64)) = true := by
  have hle := e.le
  have hpos := e.pos
  simp only [isErr, decide_eq_true_eq, BitVec.le_def, toNat_errPtr]
  have hmax : (-BitVec.ofNat 64 maxErrno).toNat = 2 ^ 64 - 4095 := rfl
  omega

theorem ptrErr_errPtr (i : BitVec 32) : (ptrErr (errPtr (i.signExtend 64))).setWidth 32 = i := by
  apply BitVec.eq_of_getLsbD_eq
  intro j hj
  simp only [ptrErr, errPtr, BitVec.getLsbD_setWidth, BitVec.getLsbD_signExtend, hj, decide_true, Bool.true_and, if_true]
  have hj' : j < 64 := by omega
  simp [hj']

theorem isErr_address (a : Address) : isErr a.pointer = false := by
  have hlt := a.user
  have hmax : (-BitVec.ofNat 64 maxErrno).toNat = 2 ^ 64 - 4095 := rfl
  simp only [isErr, decide_eq_false_iff_not, BitVec.le_def]
  omega

end Err

namespace FuseSqlite3

def deadbeef : Pointer := 0xdeadbeef00000000

/-- `(void*) ((uint64_t) integer | 0xdeadbeef00000000UL)`. -/
def errPtr (integer : BitVec 32) : Pointer := integer.signExtend 64 ||| deadbeef

/-- `-(int) ((uint64_t) ptr & ~0xdeadbeef00000000UL)`. -/
def ptrErr (ptr : Pointer) : BitVec 32 := -(ptr &&& ~~~deadbeef).setWidth 32

def isErr (ptr : Pointer) : Bool := ptr &&& deadbeef == deadbeef

theorem isErr_errPtr (i : BitVec 32) : isErr (errPtr i) = true := by
  simp only [isErr, errPtr, beq_iff_eq]
  apply BitVec.eq_of_getLsbD_eq
  intro j hj
  rw [BitVec.getLsbD_and, BitVec.getLsbD_or]
  cases deadbeef.getLsbD j with
  | false => exact Bool.and_false _
  | true => rw [Bool.or_true, Bool.and_true]

theorem getLsbD_deadbeef {j : ℕ} (hj : j < 32) : deadbeef.getLsbD j = false := by
  have hall : ∀ j : Fin 32, deadbeef.getLsbD j = false := by decide
  exact hall ⟨j, hj⟩

theorem ptrErr_errPtr (i : BitVec 32) : ptrErr (errPtr i) = -i := by
  rw [ptrErr]
  congr 1
  apply BitVec.eq_of_getLsbD_eq
  intro j hj
  have hj' : j < 64 := by omega
  simp only [errPtr, BitVec.getLsbD_setWidth, BitVec.getLsbD_and, BitVec.getLsbD_or, BitVec.getLsbD_not,
    BitVec.getLsbD_signExtend, getLsbD_deadbeef hj, hj, hj', decide_true, Bool.true_and, Bool.or_false,
    Bool.not_false, Bool.and_true, if_true]

theorem isErr_address (a : Address) : isErr a.pointer = false := by
  have hlt := a.user
  simp only [isErr, beq_eq_false_iff_ne]
  intro h
  have hle : (a.pointer &&& deadbeef).toNat ≤ a.pointer.toNat := by
    rw [BitVec.toNat_and]
    exact Nat.and_le_left
  have hmask : deadbeef.toNat = 0xdeadbeef00000000 := rfl
  rw [h, hmask] at hle
  omega

end FuseSqlite3

end TagFilesystem
