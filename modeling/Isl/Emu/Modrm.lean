import Isl.Emu.CpuState
import Isl.Emu.MemAccess

/-! Operands of instructions: `emu/modrm.h`, `emu/regid.h` and `modrm_compute`. -/

namespace Isl.Emu

def Reg32.num : Reg32 → ℕ
  | .eax => 0
  | .ecx => 1
  | .edx => 2
  | .ebx => 3
  | .esp => 4
  | .ebp => 5
  | .esi => 6
  | .edi => 7

/-- The register of a number of three bits. -/
def Reg32.ofBits (n : BitVec 3) : Reg32 :=
  match n.toNat with
  | 0 => .eax
  | 1 => .ecx
  | 2 => .edx
  | 3 => .ebx
  | 4 => .esp
  | 5 => .ebp
  | 6 => .esi
  | _ => .edi

/-- What a `regptr` points to: one of the two low bytes of a register, given with
whether it is the second, a word, a register, and an SSE register. -/
structure Regptr where
  reg8 : Reg32 × Bool
  reg16 : Reg32
  reg32 : Reg32
  reg128 : Fin 8
deriving DecidableEq

def regptrFromReg : Reg32 → Regptr
  | .eax => ⟨(.eax, false), .eax, .eax, 0⟩
  | .ecx => ⟨(.ecx, false), .ecx, .ecx, 1⟩
  | .edx => ⟨(.edx, false), .edx, .edx, 2⟩
  | .ebx => ⟨(.ebx, false), .ebx, .ebx, 3⟩
  | .esp => ⟨(.eax, true), .esp, .esp, 4⟩
  | .ebp => ⟨(.ecx, true), .ebp, .ebp, 5⟩
  | .esi => ⟨(.edx, true), .esi, .esi, 6⟩
  | .edi => ⟨(.ebx, true), .edi, .edi, 7⟩

/-- `REGISTER` for reading 8, 16, 32 or 128 bits. -/
def CpuState.register (cpu : CpuState) (p : Regptr) (w : ℕ) : BitVec w :=
  if w = 8 then (cpu.regs p.reg8.1 >>> if p.reg8.2 then 8 else 0).setWidth w
  else if w = 16 then (cpu.regs p.reg16).setWidth w
  else if w = 128 then (cpu.xmm p.reg128).setWidth w
  else (cpu.regs p.reg32).setWidth w

inductive ModrmType
  | modrmReg
  | modrmMem
  | modrmMemSi
deriving DecidableEq

/-- `base` is `none` for `reg_none`. -/
structure Modrm where
  reg : Reg32
  type : ModrmType
  base : Option Reg32
  offset : Dword
  index : Reg32
  shift : BitVec 2
deriving DecidableEq

namespace Modrm

/-- The other name of `reg`. -/
def opcode (m : Modrm) : ℕ := m.reg.num

/-- The other name of `base`, where `reg_none` is 8. -/
def rmOpcode (m : Modrm) : ℕ := (m.base.map Reg32.num).getD 8

end Modrm

def rmSib : Reg32 := .esp
def rmNone : Reg32 := .esp
def rmDisp32 : Reg32 := .ebp

def modField (byte : BitVec 8) : BitVec 2 := byte.extractLsb' 6 2
def regField (byte : BitVec 8) : Reg32 := .ofBits (byte.extractLsb' 3 3)
def rmField (byte : BitVec 8) : Reg32 := .ofBits (byte.extractLsb' 0 3)

inductive Mode
  | disp0
  | disp8
  | disp32
  | reg
deriving DecidableEq

def Mode.ofBits (n : BitVec 2) : Mode :=
  match n.toNat with
  | 0 => .disp0
  | 1 => .disp8
  | 2 => .disp32
  | _ => .reg

/-- `READ`: the value and the address behind it, or the address that cannot be
read. -/
def fetch (code : GuestMem) (ip : Dword) (w : ℕ) : Except Dword (BitVec w × Dword) :=
  match code.tlbRead ip w with
  | none => .error ip
  | some v => .ok (v, ip + BitVec.ofNat 32 (w / 8))

/-- The displacement of a mode. Without one in the mode, the field stays unset. -/
def readOffset (code : GuestMem) (ip : Dword) (modrm : Modrm) :
    Mode → Except Dword (Modrm × Dword)
  | .disp0 => .ok ({ modrm with offset := 0 }, ip)
  | .disp8 => do
    let (offset, ip) ← fetch code ip 8
    .ok ({ modrm with offset := offset.signExtend 32 }, ip)
  | .disp32 => do
    let (offset, ip) ← fetch code ip 32
    .ok ({ modrm with offset := offset }, ip)
  | .reg => .ok (modrm, ip)

/-- `modrm_decode32`, which leaves some fields of `modrm` as they were. -/
def modrmDecode32 (code : GuestMem) (ip : Dword) (modrm : Modrm) :
    Except Dword (Modrm × Dword) := do
  let (byte, ip) ← fetch code ip 8
  let mode := Mode.ofBits (modField byte)
  let modrm := { modrm with
    type := .modrmMem, reg := regField byte, base := some (rmField byte) }
  if mode = .reg then readOffset code ip { modrm with type := .modrmReg } mode
  else if modrm.base = some rmDisp32 ∧ mode = .disp0 then
    readOffset code ip { modrm with base := none } .disp32
  else if modrm.base = some rmSib ∧ mode ≠ .reg then
    let (sib, ip) ← fetch code ip 8
    let modrm := { modrm with base := some (rmField sib) }
    let (modrm, mode) :=
      if modrm.base = some rmDisp32 then
        if mode = .disp0 then ({ modrm with base := none }, .disp32)
        else ({ modrm with base := some .ebp }, mode)
      else (modrm, mode)
    let modrm := { modrm with index := regField sib, shift := modField sib }
    let modrm := if modrm.index ≠ rmNone then { modrm with type := .modrmMemSi } else modrm
    readOffset code ip modrm mode
  else readOffset code ip modrm mode

/-- `modrm_compute`, which adds the address to `addr`. -/
def modrmCompute (code : GuestMem) (cpu : CpuState) (ip : Dword) (addr : Dword) (modrm : Modrm) :
    Except Dword (Modrm × Dword × Dword) := do
  let (modrm, ip) ← modrmDecode32 code ip modrm
  if modrm.type = .modrmReg then .ok (modrm, addr, ip)
  else
    let addr :=
      match modrm.base with
      | none => addr
      | some base => addr + cpu.register (regptrFromReg base) 32
    let addr := addr + modrm.offset
    if modrm.type = .modrmMemSi then
      let indexReg := regptrFromReg modrm.index
      .ok (modrm, addr + cpu.register indexReg 32 <<< modrm.shift.toNat, ip)
    else .ok (modrm, addr, ip)

end Isl.Emu
