import Mathlib.Data.BitVec
import Mathlib.Data.Int.Notation

/-! The operations of `struct fd_ops` that copy bytes and seek. -/

namespace Isl.Fs

abbrev Off := BitVec 64

def IsErrno (code : ℤ) : Prop := -4096 < code ∧ code < 0

/-- A negative error number, as the operations and the calls return it. -/
structure Errno where
  code : ℤ
  isErrno : IsErrno code

namespace Errno

theorem isErrno_noent : IsErrno (-2) := ⟨by decide, by decide⟩
theorem isErrno_badf : IsErrno (-9) := ⟨by decide, by decide⟩
theorem isErrno_fault : IsErrno (-14) := ⟨by decide, by decide⟩
theorem isErrno_notdir : IsErrno (-20) := ⟨by decide, by decide⟩
theorem isErrno_isdir : IsErrno (-21) := ⟨by decide, by decide⟩
theorem isErrno_inval : IsErrno (-22) := ⟨by decide, by decide⟩
theorem isErrno_overflow : IsErrno (-75) := ⟨by decide, by decide⟩

def noent : Errno := ⟨-2, isErrno_noent⟩
def badf : Errno := ⟨-9, isErrno_badf⟩
def fault : Errno := ⟨-14, isErrno_fault⟩
def notdir : Errno := ⟨-20, isErrno_notdir⟩
def isdir : Errno := ⟨-21, isErrno_isdir⟩
def inval : Errno := ⟨-22, isErrno_inval⟩
def overflow : Errno := ⟨-75, isErrno_overflow⟩

/-- The value of the error in a type of `w` bits. -/
def toBits (w : ℕ) (e : Errno) : BitVec w := BitVec.ofInt w e.code

end Errno

def lseekSet : BitVec 32 := 0
def lseekCur : BitVec 32 := 1
def lseekEnd : BitVec 32 := 2

/-- What `read` of an operation table does: an error, or the bytes that it has put into
the buffer. -/
abbrev ReadOp (σ : Type) := σ → ℕ → σ × Except Errno (List (BitVec 8))

abbrev LseekOp (σ : Type) := σ → Off → BitVec 32 → σ × Off

/-- A descriptor that can seek: its position, its operations, and what `lseek(2)` and
`read(2)` say about them. -/
structure Seekable (σ : Type) where
  pos : σ → ℕ
  base : σ → BitVec 32 → ℕ
  lseek : LseekOp σ
  read : ReadOp σ
  base_set : ∀ s, base s lseekSet = 0
  seek_ok : ∀ s off whence, 0 ≤ (lseek s off whence).2.toInt →
    (pos (lseek s off whence).1 : ℤ) = (lseek s off whence).2.toInt ∧
      (lseek s off whence).2.toInt = base s whence + off.toInt
  seek_err : ∀ s off whence, (lseek s off whence).2.toInt < 0 →
    pos (lseek s off whence).1 = pos s ∧ IsErrno (lseek s off whence).2.toInt
  read_ok : ∀ s size bs, (read s size).2 = .ok bs →
    bs.length ≤ size ∧ pos (read s size).1 = pos s + bs.length
  read_err : ∀ s size e, (read s size).2 = .error e → pos (read s size).1 = pos s

namespace Errno

variable {e : Errno} {w : ℕ}

theorem toInt_toBits (hw : 13 ≤ w) : (e.toBits w).toInt = e.code := by
  have hpow : 2 ^ 13 ≤ 2 ^ w := Nat.pow_le_pow_right Nat.two_pos hw
  obtain ⟨hlow, hneg⟩ := e.isErrno
  rw [toBits, BitVec.toInt_ofInt, Int.bmod_eq_of_le] <;> omega

end Errno

end Isl.Fs
