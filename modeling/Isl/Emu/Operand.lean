import Isl.Emu.Float80
import Isl.Emu.Modrm
import Isl.Lib.Exec

/-!
The state of the interpreter of `emu/interp.c`, and the operands of its instruction
macros: what `get` reads and what `set` writes.
-/

namespace Isl.Emu

open Isl.Lib

/-- `cpu`, the memory behind `tlb`, and `f80_rounding_mode`. -/
structure Machine where
  cpu : CpuState
  mem : GuestMem
  rounding : RoundingMode

/-- Where `cpu_step` returns early: at an access that faults, at a byte of the
instruction that cannot be fetched, and with an interrupt. -/
inductive Stop
  | gpf (addr : Dword)
  | fetch
  | undefined
  | div
  | int (code : BitVec 8)
deriving DecidableEq

/-- What a step without a defined effect does: an element outside of `fp`, a
division by zero or a shift too far in C, an operation on numbers without a result,
and a loop without an end. -/
inductive Wrong
  | outOfBounds
  | divideByZero
  | shiftTooFar
  | noResult
  | noReturn
deriving DecidableEq

abbrev Op := Exec Stop Wrong Machine

/-- The locals of `cpu_step` once the instruction is decoded, with `OP_SIZE`. -/
structure Locals where
  oz : ℕ
  addr : Dword
  modrm : Modrm
  imm : Qword

/-- The operands that can be assigned to. `reg` is a register by its name. -/
inductive Place
  | modrmReg
  | modrmVal
  | memAddr
  | reg (r : Reg32)
  | eip
  | eflags
  | gs
deriving DecidableEq

inductive Operand
  | place (p : Place)
  | imm
  | memSi
  | memDi
  | const (n : ℕ)
  | addr
deriving DecidableEq

instance : Coe Place Operand := ⟨.place⟩

/-- `v` in place of the bits of `x` from `k` on. -/
def insertBits (x : Dword) (k : ℕ) {w : ℕ} (v : BitVec w) : Dword :=
  (x &&& ~~~((BitVec.allOnes w).setWidth 32 <<< k)) ||| (v.setWidth 32 <<< k)

namespace CpuState

variable (cpu : CpuState)

def setReg (r : Reg32) (v : Dword) : CpuState := { cpu with regs := Function.update cpu.regs r v }

/-- An assignment through the name of a register, to its low bits. -/
def setNamed (r : Reg32) {w : ℕ} (v : BitVec w) : CpuState :=
  cpu.setReg r (insertBits (cpu.regs r) 0 v)

/-- An assignment to `REGISTER` of 8, 16, 32 or 128 bits. -/
def setRegister (p : Regptr) {w : ℕ} (v : BitVec w) : CpuState :=
  if w = 8 then
    cpu.setReg p.reg8.1 (insertBits (cpu.regs p.reg8.1) (if p.reg8.2 then 8 else 0) v)
  else if w = 16 then cpu.setNamed p.reg16 v
  else if w = 128 then { cpu with xmm := Function.update cpu.xmm p.reg128 (v.setWidth 128) }
  else cpu.setNamed p.reg32 v

end CpuState

def Machine.mapCpu (f : CpuState → CpuState) (m : Machine) : Machine := { m with cpu := f m.cpu }

namespace Locals

variable (l : Locals)

def modrmRegptr : Regptr := regptrFromReg l.modrm.reg

/-- Only read for an operand in a register, which `base` then names. -/
def modrmBase : Regptr := regptrFromReg (l.modrm.base.getD .eax)

end Locals

/-! Access to the memory. -/

def memRead (addr : Dword) (w : ℕ) : Op (BitVec w) := fun m ↦
  match m.mem.tlbRead addr w with
  | some v => .ok v m
  | none => .stop (.gpf addr) m

def memWrite (addr : Dword) {w : ℕ} (v : BitVec w) : Op Unit := fun m ↦
  match m.mem.tlbWrite addr v with
  | some mem => .ok () { m with mem := mem }
  | none => .stop (.gpf addr) m

def modifyCpu (f : CpuState → CpuState) : Op Unit := Exec.modify (Machine.mapCpu f)

/-! Operands. -/

section

variable (l : Locals)

def isMemory : Place → Bool
  | .modrmVal => l.modrm.type != .modrmReg
  | .memAddr => true
  | _ => false

/-- `get` -/
def get (what : Operand) (w : ℕ) : Op (BitVec w) := fun m ↦
  match what with
  | .place .modrmReg => .ok (m.cpu.register l.modrmRegptr w) m
  | .place .modrmVal =>
    if l.modrm.type = .modrmReg then .ok (m.cpu.register l.modrmBase w) m else memRead l.addr w m
  | .place .memAddr => memRead l.addr w m
  | .place (.reg r) => .ok ((m.cpu.regs r).setWidth w) m
  | .place .eip => .ok (m.cpu.eip.setWidth w) m
  | .place .eflags => .ok (m.cpu.eflags.setWidth w) m
  | .place .gs => .ok (m.cpu.gs.setWidth w) m
  | .imm => .ok (l.imm.setWidth w) m
  | .memSi => memRead (m.cpu.regs .esi) w m
  | .memDi => memRead (m.cpu.regs .edi) w m
  | .const n => .ok (BitVec.ofNat w n) m
  | .addr => .ok (l.addr.setWidth w) m

/-- `set` -/
def set (what : Place) {w : ℕ} (v : BitVec w) : Op Unit :=
  match what with
  | .modrmReg => modifyCpu fun cpu ↦ cpu.setRegister l.modrmRegptr v
  | .modrmVal =>
    if l.modrm.type = .modrmReg then modifyCpu fun cpu ↦ cpu.setRegister l.modrmBase v
    else memWrite l.addr v
  | .memAddr => memWrite l.addr v
  | .reg r => modifyCpu fun cpu ↦ cpu.setNamed r v
  | .eip => modifyCpu fun cpu ↦ { cpu with eip := v.setWidth 32 }
  | .eflags => modifyCpu fun cpu ↦ { cpu with eflags := v.setWidth 32 }
  | .gs => modifyCpu fun cpu ↦ { cpu with gs := v.setWidth 16 }

end

end Isl.Emu
