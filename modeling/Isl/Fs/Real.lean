import Isl.Fs.FdOps

/-! `realfs_lseek` and `realfs_read` of `fs/real.c`, over a file of the host. -/

namespace Isl.Fs.Real

/-- `SEEK_SET`, `SEEK_CUR` and `SEEK_END` of the host. -/
inductive HostWhence
  | set
  | cur
  | fromEnd

/-- A file of the host: `lseek(2)` and `read(2)` with the error numbers that `errno_map`
makes of theirs. A pipe is one that refuses all seeks. -/
structure HostFile (σ : Type) where
  pos : σ → ℕ
  size : σ → ℕ
  lseek : σ → Off → HostWhence → σ × Except Errno ℕ
  read : ReadOp σ
  seek_ok : ∀ s off whence n, (lseek s off whence).2 = .ok n → n < 2 ^ 63 ∧
    pos (lseek s off whence).1 = n ∧
      (n : ℤ) = (match whence with | .set => 0 | .cur => pos s | .fromEnd => size s : ℕ) + off.toInt
  seek_err : ∀ s off whence e, (lseek s off whence).2 = .error e →
    pos (lseek s off whence).1 = pos s
  read_ok : ∀ s size bs, (read s size).2 = .ok bs →
    bs.length ≤ size ∧ pos (read s size).1 = pos s + bs.length
  read_err : ∀ s size e, (read s size).2 = .error e → pos (read s size).1 = pos s

variable {σ : Type}

def toHost (whence : BitVec 32) : Option HostWhence :=
  if whence = lseekSet then some .set
  else if whence = lseekCur then some .cur
  else if whence = lseekEnd then some .fromEnd
  else none

def realfsLseek (file : HostFile σ) (s : σ) (off : Off) (whence : BitVec 32) : σ × Off :=
  match toHost whence with
  | none => (s, Errno.inval.toBits 64)
  | some whence =>
    match file.lseek s off whence with
    | (s, .error err) => (s, err.toBits 64)
    | (s, .ok res) => (s, BitVec.ofNat 64 res)

def base (file : HostFile σ) (s : σ) (whence : BitVec 32) : ℕ :=
  match toHost whence with
  | some .cur => file.pos s
  | some .fromEnd => file.size s
  | _ => 0

section

variable (file : HostFile σ) (s : σ) (off : Off) (whence : BitVec 32)

/-- A seek fails, or it ends at the base and the offset. -/
theorem realfsLseek_cases :
    (file.pos (realfsLseek file s off whence).1 = file.pos s ∧
      IsErrno (realfsLseek file s off whence).2.toInt) ∨
    (0 ≤ (realfsLseek file s off whence).2.toInt ∧
      (file.pos (realfsLseek file s off whence).1 : ℤ) = (realfsLseek file s off whence).2.toInt ∧
      (realfsLseek file s off whence).2.toInt = base file s whence + off.toInt) := by
  have herrno (e : Errno) : IsErrno (e.toBits 64).toInt := by
    rw [Errno.toInt_toBits (by decide)]
    exact e.isErrno
  rw [realfsLseek, base]
  cases toHost whence with
  | none => exact .inl ⟨rfl, herrno _⟩
  | some w =>
    have hok := file.seek_ok s off w
    have herr := file.seek_err s off w
    obtain ⟨s', r, hl⟩ : ∃ s' r, file.lseek s off w = (s', r) := ⟨_, _, rfl⟩
    rw [hl] at hok herr
    dsimp only
    rw [hl]
    cases r with
    | error e => exact .inl ⟨herr e rfl, herrno e⟩
    | ok n =>
      obtain ⟨hlt, hpos, hsum⟩ := hok n rfl
      have hint : (BitVec.ofNat 64 n).toInt = n := by
        rw [BitVec.toInt_eq_toNat_cond, BitVec.toNat_ofNat, Nat.mod_eq_of_lt (by omega),
          if_pos (by omega)]
      refine .inr ⟨?_, ?_, ?_⟩
      · rw [hint]
        exact Int.natCast_nonneg n
      · rw [hint]
        exact congrArg _ hpos
      · rw [hint, hsum]
        cases w <;> rfl

theorem realfsLseek_ok (h : 0 ≤ (realfsLseek file s off whence).2.toInt) :
    (file.pos (realfsLseek file s off whence).1 : ℤ) = (realfsLseek file s off whence).2.toInt ∧
      (realfsLseek file s off whence).2.toInt = base file s whence + off.toInt := by
  obtain ⟨-, herr⟩ | ⟨-, hok⟩ := realfsLseek_cases file s off whence
  · exact absurd herr.2 (Int.not_lt.mpr h)
  · exact hok

theorem realfsLseek_err (h : (realfsLseek file s off whence).2.toInt < 0) :
    file.pos (realfsLseek file s off whence).1 = file.pos s ∧
      IsErrno (realfsLseek file s off whence).2.toInt := by
  obtain herr | ⟨hpos, -⟩ := realfsLseek_cases file s off whence
  · exact herr
  · exact absurd h (Int.not_lt.mpr hpos)

end

theorem base_set (file : HostFile σ) (s : σ) : base file s lseekSet = 0 := rfl

/-- A descriptor of `realfs_fdops`. -/
def seekable (file : HostFile σ) : Seekable σ where
  pos := file.pos
  base := base file
  lseek := realfsLseek file
  read := file.read
  base_set := base_set file
  seek_ok := realfsLseek_ok file
  seek_err := realfsLseek_err file
  read_ok := file.read_ok
  read_err := file.read_err

end Isl.Fs.Real
