import Isl.Emu.GuestMem
import Isl.Fs.FdOps

/-!
Calls of `kernel/fs.c` that read, write and seek. They copy through a buffer of
`malloc(size + 1)` bytes.
-/

namespace Isl.Kernel.FileCalls

open Isl.Lib Isl.Emu Isl.Emu.Memory Isl.Fs

abbrev Dword := BitVec 32

/-- What a call works on: the descriptor and the memory of the guest. It is lost by a
write behind the end of a buffer of the host. -/
structure Guest (σ : Type) where
  desc : σ
  mem : GuestMem
  lost : Bool

/-- What `write` of an operation table does: an error, or a number of bytes. -/
abbrev WriteOp (σ : Type) := σ → List Byte → σ × Except Errno ℕ

variable {σ : Type}

/-- The read into the buffer, and the copy of `res` bytes to the guest. -/
def copyRead (read : ReadOp σ) (t : Guest σ) (bufAddr : Addr) (size : Dword) : Guest σ × Dword :=
  match read t.desc size.toNat with
  | (s, .error err) => ({ t with desc := s }, err.toBits 32)
  | (s, .ok bytes) =>
    let lost := t.lost || (size + 1).toNat < bytes.length
    let res := BitVec.ofNat 32 bytes.length
    if res.toInt < 0 then (⟨s, t.mem, lost⟩, res)
    else
      let r := t.mem.userWrite bufAddr (bytes.take res.toNat)
      (⟨s, r.1, lost⟩, if r.2 = 0 then res else Errno.fault.toBits 32)

/-- There is no operation when there is no such descriptor, or it has none. -/
def sysRead (read : Option (ReadOp σ)) (t : Guest σ) (bufAddr : Addr) (size : Dword) :
    Guest σ × Dword :=
  match read with
  | none => (t, Errno.badf.toBits 32)
  | some read => copyRead read t bufAddr size

def sysWrite (write : Option (WriteOp σ)) (t : Guest σ) (bufAddr : Addr) (size : Dword) :
    Guest σ × Dword :=
  let r := t.mem.userRead bufAddr (List.replicate size.toNat 0)
  let t := { t with lost := t.lost || (size + 1 = 0 && (t.mem.load bufAddr).isSome) }
  if r.2 ≠ 0 then (t, Errno.fault.toBits 32)
  else
    match write with
    | none => (t, Errno.badf.toBits 32)
    | some write =>
      match write t.desc r.1 with
      | (s, .error err) => ({ t with desc := s }, err.toBits 32)
      | (s, .ok n) => ({ t with desc := s }, BitVec.ofNat 32 n)

def sysLlseek (lseek : LseekOp σ) (t : Guest σ) (offHigh offLow : Dword) (resAddr : Addr)
    (whence : Dword) : Guest σ × Dword :=
  let off : Off := offHigh.setWidth 64 <<< 32 ||| offLow.setWidth 64
  let (s, res) := lseek t.desc off whence
  let t := { t with desc := s }
  if res.toInt < 0 then (t, res.setWidth 32)
  else
    let r := t.mem.userWrite resAddr (Layout.leBytes 8 res.toNat)
    ({ t with mem := r.1 }, if r.2 = 0 then 0 else Errno.fault.toBits 32)

def sysLseek (lseek : LseekOp σ) (t : Guest σ) (off whence : Dword) : Guest σ × Dword :=
  let (s, res) := lseek t.desc (off.setWidth 64) whence
  let t := { t with desc := s }
  if (res.setWidth 32).setWidth 64 ≠ res then (t, Errno.overflow.toBits 32)
  else (t, res.setWidth 32)

def sysPread (lseek : LseekOp σ) (read : ReadOp σ) (t : Guest σ) (bufAddr : Addr) (size : Dword)
    (off : Off) : Guest σ × Dword :=
  let (s, res) := lseek t.desc off lseekSet
  let t := { t with desc := s }
  -- the result of the seek is cut to 32 bits
  let res : Dword := res.setWidth 32
  if res.toInt < 0 then (t, res) else copyRead read t bufAddr size

end Isl.Kernel.FileCalls
