import Isl.Emu.Operand

/-!
The instruction macros of `emu/interp.c` that work on integers. Their names are the
source's, and so is the order in which each reads its operands and sets the flags.
-/

namespace Isl.Emu

open Isl.Lib

/-! Flags. -/

def byteOf (b : Bool) : BitVec 8 := if b then 1 else 0

def setCf (b : BitVec 8) : Op Unit := modifyCpu fun cpu ↦ { cpu with cf := b }

def setOf (b : BitVec 8) : Op Unit := modifyCpu fun cpu ↦ { cpu with of := b }

def CpuState.setFlag (cpu : CpuState) (f : FlagBit) (b : Bool) : CpuState :=
  { cpu with eflags := setBit cpu.eflags f.index b }

theorem CpuState.flag_setFlag (cpu : CpuState) (f g : FlagBit) (b : Bool) :
    (cpu.setFlag f b).flag g = if g = f then b else cpu.flag g := by
  simp only [flag, setFlag, getLsbD_setBit _ f.index_lt, FlagBit.index_injective.eq_iff]

theorem CpuState.flag_setFlag_self (cpu : CpuState) (f : FlagBit) (b : Bool) :
    (cpu.setFlag f b).flag f = b := by
  rw [flag_setFlag, if_pos rfl]

theorem CpuState.flag_setFlag_ne (cpu : CpuState) {f g : FlagBit} (hne : g ≠ f) (b : Bool) :
    (cpu.setFlag f b).flag g = cpu.flag g := by
  rw [flag_setFlag, if_neg hne]

/-- `SETRESFLAGS` -/
def setResFlags : Op Unit :=
  modifyCpu fun cpu ↦ { cpu with pfRes := true, zfRes := true, sfRes := true }

def setRaw (v : Dword) : Op Unit := modifyCpu fun cpu ↦ { cpu with res := v }

/-- `SETRES` -/
def setRes {z : ℕ} (v : BitVec z) : Op Unit := do
  setRaw (v.signExtend 32)
  setResFlags

/-- `ZEROAF` -/
def zeroAf : Op Unit := modifyCpu fun cpu ↦ { cpu.setFlag .af false with afOps := false }

/-- `cpu->cf = cpu->of = cpu->af = cpu->af_ops = 0` -/
def clearCfOfAf : Op Unit := do
  zeroAf
  setOf 0
  setCf 0

/-- `cpu->zf = cpu->sf = cpu->pf = cpu->zf_res = cpu->sf_res = cpu->pf_res = 0` -/
def clearZfSfPf : Op Unit := modifyCpu fun cpu ↦
  { ((cpu.setFlag .pf false).setFlag .sf false).setFlag .zf false with
    pfRes := false, sfRes := false, zfRes := false }

inductive Arith
  | add
  | sub
  | mul
deriving DecidableEq

namespace Arith

variable {z : ℕ}

def eval (a b : BitVec z) : Arith → BitVec z
  | .add => a + b
  | .sub => a - b
  | .mul => a * b

def uoverflow (a b : BitVec z) : Arith → Bool
  | .add => a.uaddOverflow b
  | .sub => a.usubOverflow b
  | .mul => a.umulOverflow b

def soverflow (a b : BitVec z) : Arith → Bool
  | .add => a.saddOverflow b
  | .sub => a.ssubOverflow b
  | .mul => a.smulOverflow b

end Arith

/-- `unsigned_overflow`, which also leaves the result in `res`. -/
def unsignedOverflow (what : Arith) {z : ℕ} (a b : BitVec z) : Op (BitVec 8) := do
  setRaw ((what.eval a b).signExtend 32)
  pure (byteOf (what.uoverflow a b))

/-- `signed_overflow` -/
def signedOverflow (what : Arith) {z : ℕ} (a b : BitVec z) : Op (BitVec 8) := do
  setRaw ((what.eval a b).signExtend 32)
  pure (byteOf (what.soverflow a b))

section

variable (m : Machine) {z : ℕ} (what : Arith) (a b : BitVec z)

@[simp] theorem setCf_apply (v : BitVec 8) :
    setCf v m = .ok () (m.mapCpu fun cpu ↦ { cpu with cf := v }) := rfl

@[simp] theorem setOf_apply (v : BitVec 8) :
    setOf v m = .ok () (m.mapCpu fun cpu ↦ { cpu with of := v }) := rfl

@[simp] theorem setRes_apply (v : BitVec z) : setRes v m = .ok () (m.mapCpu fun cpu ↦
    { cpu with res := v.signExtend 32, pfRes := true, zfRes := true, sfRes := true }) := by
  simp only [setRes, setRaw, setResFlags, modifyCpu, Exec.modify_bind_apply, Exec.modify_apply,
    Machine.mapCpu]

@[simp] theorem clearCfOfAf_apply : clearCfOfAf m = .ok () (m.mapCpu fun cpu ↦
    { cpu.setFlag .af false with afOps := false, of := 0, cf := 0 }) := by
  simp only [clearCfOfAf, zeroAf, setOf, setCf, modifyCpu, Exec.modify_bind_apply,
    Exec.modify_apply, Machine.mapCpu, CpuState.setFlag]

@[simp] theorem unsignedOverflow_apply : unsignedOverflow what a b m =
    .ok (byteOf (what.uoverflow a b))
      (m.mapCpu fun cpu ↦ { cpu with res := (what.eval a b).signExtend 32 }) := rfl

@[simp] theorem signedOverflow_apply : signedOverflow what a b m =
    .ok (byteOf (what.soverflow a b))
      (m.mapCpu fun cpu ↦ { cpu with res := (what.eval a b).signExtend 32 }) := rfl

end

/-! Condition codes. -/

inductive Cond
  | O
  | B
  | E
  | BE
  | S
  | P
  | L
  | LE
deriving DecidableEq

namespace Cond

def eval (cpu : CpuState) : Cond → Bool
  | .O => cpu.OF != 0
  | .B => cpu.CF != 0
  | .E => cpu.ZF
  | .BE => (cpu.CF ||| byteOf cpu.ZF) != 0
  | .S => cpu.SF
  | .P => cpu.PF
  | .L => (byteOf cpu.SF ^^^ cpu.OF) != 0
  | .LE => ((byteOf cpu.SF ^^^ cpu.OF) ||| byteOf cpu.ZF) != 0

end Cond

/-- A condition, or its negation. -/
def holds (c : Cond) (negated : Bool) : Op Bool := do
  let m ← Exec.get
  pure (c.eval m.cpu ^^ negated)

variable (l : Locals)

/-! Moves and the stack. -/

namespace Interp

def mov (src : Operand) (dst : Place) (z : ℕ) : Op Unit := do
  set l dst (← get l src z)

def movzx (src : Operand) (dst : Place) (zs zd : ℕ) : Op Unit := do
  set l dst ((← get l src zs).setWidth zd)

def movsx (src : Operand) (dst : Place) (zs zd : ℕ) : Op Unit := do
  set l dst ((← get l src zs).signExtend zd)

def xchg (src dst : Place) (z : ℕ) : Op Unit := do
  let tmp ← get l src z
  set l src (← get l dst z)
  set l dst tmp

def push (thing : Operand) (z : ℕ) : Op Unit := do
  let val ← get l thing z
  let m ← Exec.get
  memWrite (m.cpu.regs .esp - BitVec.ofNat 32 (l.oz / 8)) val
  modifyCpu fun cpu ↦ cpu.setReg .esp (cpu.regs .esp - BitVec.ofNat 32 (l.oz / 8))

def pop (thing : Place) (z : ℕ) : Op Unit := do
  let m ← Exec.get
  set l thing (← memRead (m.cpu.regs .esp) z)
  modifyCpu fun cpu ↦ cpu.setReg .esp (cpu.regs .esp + BitVec.ofNat 32 (l.oz / 8))

/-! Arithmetic. -/

/-- `SETAF` -/
def setAf (a b : Operand) (z : ℕ) : Op Unit := do
  let a ← get l a z
  modifyCpu fun cpu ↦ { cpu with op1 := a.setWidth 32 }
  let b ← get l b z
  modifyCpu fun cpu ↦ { cpu with op2 := b.setWidth 32 }
  modifyCpu fun cpu ↦ { cpu with afOps := true }

/-- `set(dst, cpu->res,z)` -/
def setFromRes (dst : Place) (z : ℕ) : Op Unit := do
  let m ← Exec.get
  set l dst (m.cpu.res.setWidth z)

def test (src : Operand) (dst : Place) (z : ℕ) : Op Unit := do
  let d ← get l dst z
  let s ← get l src z
  setRes (d &&& s)
  clearCfOfAf

def add (src : Operand) (dst : Place) (z : ℕ) : Op Unit := do
  setAf l src dst z
  let d ← get l dst z
  let s ← get l src z
  setCf (← unsignedOverflow .add d s)
  let d ← get l dst z
  let s ← get l src z
  setOf (← signedOverflow .add d s)
  setFromRes l dst z
  setResFlags

/-- `get(src,z) + cpu->cf` as the second operand of an overflow macro. -/
def getPlusCf (src : Operand) (z : ℕ) : Op (BitVec z) := do
  let s ← get l src z
  let m ← Exec.get
  pure (s + m.cpu.cf.setWidth z)

/-- `ov || (cpu->cf && get(src,z) == v)` -/
def orCfAndEq (ov : BitVec 8) (src : Operand) {z : ℕ} (v : BitVec z) : Op (BitVec 8) := do
  let m ← Exec.get
  if ov ≠ 0 then pure 1
  else if m.cpu.cf = 0 then pure 0
  else do
    let s ← get l src z
    pure (byteOf (s == v))

/-- The common text of `ADC` and `SBB`. -/
def carry (what : Arith) (src : Operand) (dst : Place) (z : ℕ) : Op Unit := do
  setAf l src dst z
  let d ← get l dst z
  let s ← getPlusCf l src z
  let ov ← signedOverflow what d s
  -- `((uint(z)) -1) / 2`
  setOf (← orCfAndEq l ov src (BitVec.allOnes z / 2))
  let d ← get l dst z
  let s ← getPlusCf l src z
  let ov ← unsignedOverflow what d s
  setCf (← orCfAndEq l ov src (BitVec.allOnes z))
  setFromRes l dst z
  setResFlags

def adc (src : Operand) (dst : Place) (z : ℕ) : Op Unit := carry l .add src dst z
def sbb (src : Operand) (dst : Place) (z : ℕ) : Op Unit := carry l .sub src dst z

/-- The common text of `OR`, `AND` and `XOR`. -/
def bitwise (f : {z : ℕ} → BitVec z → BitVec z → BitVec z) (src : Operand) (dst : Place) (z : ℕ) :
    Op Unit := do
  let d ← get l dst z
  let s ← get l src z
  set l dst (f d s)
  clearCfOfAf
  setRes (← get l dst z)

def or (src : Operand) (dst : Place) (z : ℕ) : Op Unit := bitwise l (· ||| ·) src dst z
def and (src : Operand) (dst : Place) (z : ℕ) : Op Unit := bitwise l (· &&& ·) src dst z
def xor (src : Operand) (dst : Place) (z : ℕ) : Op Unit := bitwise l (· ^^^ ·) src dst z

def sub (src : Operand) (dst : Place) (z : ℕ) : Op Unit := do
  setAf l src dst z
  let d ← get l dst z
  let s ← get l src z
  setOf (← signedOverflow .sub d s)
  let d ← get l dst z
  let s ← get l src z
  setCf (← unsignedOverflow .sub d s)
  setFromRes l dst z
  setResFlags

def cmp (src dst : Operand) (z : ℕ) : Op Unit := do
  setAf l src dst z
  let d ← get l dst z
  let s ← get l src z
  setCf (← unsignedOverflow .sub d s)
  let d ← get l dst z
  let s ← get l src z
  setOf (← signedOverflow .sub d s)
  setResFlags

def inc (val : Place) (z : ℕ) : Op Unit := do
  let m ← Exec.get
  let tmp := m.cpu.cf
  add l (.const 1) val z
  setCf tmp

def dec (val : Place) (z : ℕ) : Op Unit := do
  let m ← Exec.get
  let tmp := m.cpu.cf
  sub l (.const 1) val z
  setCf tmp

def neg (val : Place) (z : ℕ) : Op Unit := do
  setAf l (.const 0) val z
  let v ← get l val z
  setOf (← signedOverflow .sub 0 v)
  let v ← get l val z
  setCf (← unsignedOverflow .sub 0 v)
  setFromRes l val z
  setResFlags

def not (val : Place) (z : ℕ) : Op Unit := do
  set l val (~~~(← get l val z))

def mul1 (val : Place) (z : ℕ) : Op Unit := do
  let a ← get l (.place (.reg .eax)) z
  let v ← get l val z
  let tmp : Qword := a.setWidth 64 * v.setWidth 64
  set l (.reg .eax) (tmp.setWidth z)
  set l (.reg .edx) ((tmp >>> z).setWidth z)
  let ov := byteOf (tmp != (tmp.setWidth 32).setWidth 64)
  setOf ov
  setCf ov
  zeroAf
  clearZfSfPf

def imul1 (val : Place) (z : ℕ) : Op Unit := do
  let a ← get l (.place (.reg .eax)) z
  let v ← get l val z
  let tmp : Qword := a.signExtend 64 * v.signExtend 64
  set l (.reg .eax) (tmp.setWidth z)
  set l (.reg .edx) ((tmp.sshiftRight z).setWidth z)
  let ov := byteOf (tmp != (tmp.setWidth 32).signExtend 64)
  setOf ov
  setCf ov
  clearZfSfPf

def imul2 (val : Operand) (reg : Place) (z : ℕ) : Op Unit := do
  let r ← get l reg z
  let v ← get l val z
  let ov ← signedOverflow .mul r v
  setOf ov
  setCf ov
  setFromRes l reg z
  setResFlags

def imul3 (factor src : Operand) (dst : Place) (z : ℕ) : Op Unit := do
  let s ← get l src z
  let i ← get l factor z
  let ov ← signedOverflow .mul s i
  setOf ov
  setCf ov
  setFromRes l dst z
  modifyCpu fun cpu ↦
    { ((cpu.setFlag .sf false).setFlag .zf false) with pfRes := true, sfRes := false, zfRes := false }

/-- The common text of `DIV` and `IDIV`, of which the divisor is read again after
`reg_d` is set. -/
def divide (rem quot : {n : ℕ} → BitVec n → BitVec n → BitVec n) (val : Place) (z : ℕ) :
    Op Unit := do
  let v ← get l val z
  if v = 0 then Exec.stop .div
  else do
    let a ← get l (.place (.reg .eax)) z
    let d ← get l (.place (.reg .edx)) z
    let dividend : BitVec (2 * z) := a.setWidth (2 * z) ||| d.setWidth (2 * z) <<< z
    let v ← get l val z
    if v = 0 then Exec.wrong .divideByZero
    else do
      set l (.reg .edx) ((rem dividend (v.setWidth (2 * z))).setWidth z)
      let v ← get l val z
      if v = 0 then Exec.wrong .divideByZero
      else set l (.reg .eax) ((quot dividend (v.setWidth (2 * z))).setWidth z)

def div (val : Place) (z : ℕ) : Op Unit := divide l BitVec.umod BitVec.udiv val z
def idiv (val : Place) (z : ℕ) : Op Unit := divide l BitVec.srem BitVec.sdiv val z

def cvt : Op Unit := do
  let a ← get l (.place (.reg .eax)) l.oz
  set l (.reg .edx) (if a.getLsbD (l.oz - 1) then BitVec.allOnes l.oz else 0)

/-- The halves lie at the same address. -/
def cvte : Op Unit := do
  let a ← get l (.place (.reg .eax)) l.oz
  set l (.reg .eax) (a.setWidth (l.oz / 2))

/-! Control transfer. -/

/-- `FIX_EIP` -/
def fixEip : Op Unit :=
  if l.oz = 16 then modifyCpu fun cpu ↦ { cpu with eip := cpu.eip &&& 0xffff } else pure ()

def jmp (loc : Operand) : Op Unit := do
  let eip ← get l loc l.oz
  modifyCpu fun cpu ↦ { cpu with eip := eip.setWidth 32 }
  fixEip l

def jmpRel (offset : Operand) : Op Unit := do
  let offset ← get l offset l.oz
  modifyCpu fun cpu ↦ { cpu with eip := cpu.eip + offset.setWidth 32 }
  fixEip l

def call (loc : Operand) : Op Unit := do
  push l (.place .eip) l.oz
  jmp l loc

def callRel (offset : Operand) : Op Unit := do
  push l (.place .eip) l.oz
  jmpRel l offset

def jRel (cond : Cond) (negated : Bool) (offset : Operand) : Op Unit := do
  if ← holds cond negated then jmpRel l offset

def jcxzRel (offset : Operand) : Op Unit := do
  if (← get l (.place (.reg .ecx)) l.oz) = 0 then jmpRel l offset

def retNear (args : Operand) : Op Unit := do
  pop l .eip 32
  fixEip l
  let n ← get l args 16
  modifyCpu fun cpu ↦ cpu.setReg .esp (cpu.regs .esp + n.setWidth 32)

/-! Shifts. -/

def rol (count : Operand) (val : Place) (z : ℕ) : Op Unit := do
  let cnt := (← get l count 8).toNat % z
  if cnt ≠ 0 then do
    let v ← get l val z
    set l val (v <<< cnt ||| v >>> (z - cnt))
    let v ← get l val z
    setCf (v.setWidth 8 &&& 1)
    if cnt = 1 then do
      let v ← get l val z
      let m ← Exec.get
      setOf (m.cpu.cf ^^^ (v >>> (l.oz - 1)).setWidth 8)

def ror (count : Operand) (val : Place) (z : ℕ) : Op Unit := do
  let cnt := (← get l count 8).toNat % z
  if cnt ≠ 0 then do
    let v ← get l val z
    set l val (v >>> cnt ||| v <<< (z - cnt))
    let v ← get l val z
    setCf ((v >>> (l.oz - 1)).setWidth 8)
    if cnt = 1 then do
      let v ← get l val z
      let m ← Exec.get
      setOf (m.cpu.cf ^^^ (v.setWidth 8 &&& 1))

/-- Of the narrow widths, the bits shifted out of the operand stay in the `int`. -/
def shl (count : Operand) (val : Place) (z : ℕ) : Op Unit := do
  let cnt := (← get l count 8).toNat % z
  if cnt ≠ 0 then do
    let v ← get l val z
    setCf (((v.setWidth 32 <<< (cnt - 1)) >>> (z - 1)).setWidth 8)
    let v ← get l val z
    let m ← Exec.get
    setOf (m.cpu.cf ^^^ (v >>> (z - 1)).setWidth 8)
    let v ← get l val z
    set l val (v <<< cnt)
    setRes (← get l val z)
    zeroAf

def shr (count : Operand) (val : Place) (z : ℕ) : Op Unit := do
  let cnt := (← get l count 8).toNat % z
  if cnt ≠ 0 then do
    let v ← get l val z
    setCf ((v >>> (cnt - 1)).setWidth 8 &&& 1)
    let v ← get l val z
    setOf ((v >>> (z - 1)).setWidth 8)
    let v ← get l val z
    set l val (v >>> cnt)
    setRes (← get l val z)
    zeroAf

def sar (count : Operand) (val : Place) (z : ℕ) : Op Unit := do
  let cnt := (← get l count 8).toNat % z
  if cnt ≠ 0 then do
    let v ← get l val z
    setCf ((v >>> (cnt - 1)).setWidth 8 &&& 1)
    setOf 0
    let v ← get l val z
    set l val (v.sshiftRight cnt)
    setRes (← get l val z)
    zeroAf

/-- The result is an `int` that `res` keeps whole. -/
def shrd (count extra : Operand) (dst : Place) (z : ℕ) : Op Unit := do
  let cnt := (← get l count 8).toNat % z
  if cnt ≠ 0 then do
    let d ← get l dst z
    setCf ((d >>> (cnt - 1)).setWidth 8 &&& 1)
    let d ← get l dst z
    let e ← get l extra z
    setRaw (d.setWidth 32 >>> cnt ||| e.setWidth 32 <<< (z - cnt))
    setFromRes l dst z
    setResFlags

def shld (count extra : Operand) (dst : Place) (z : ℕ) : Op Unit := do
  let cnt := (← get l count 8).toNat % z
  if cnt ≠ 0 then do
    let d ← get l dst z
    let e ← get l extra z
    setRaw (d.setWidth 32 <<< cnt ||| e.setWidth 32 >>> (z - cnt))
    setFromRes l dst z
    setResFlags

/-! Bits. -/

/-- The word of `get_bit`. -/
def bitWord (i : ℕ) (val : Place) (z : ℕ) : Op (BitVec z) :=
  if isMemory l val then memRead (l.addr + BitVec.ofNat 32 (i / z * (z / 8))) z
  else get l val z

/-- `get_bit` -/
def getBit (bit : Operand) (val : Place) (z : ℕ) : Op Bool := do
  let i ← get l bit z
  let v ← bitWord l i.toNat val z
  pure (v.getLsbD (i.toNat % z))

def msk (bit : Operand) (z : ℕ) : Op (BitVec z) := do
  let i ← get l bit z
  pure (1#z <<< (i.toNat % z))

def bt (bit : Operand) (val : Place) (z : ℕ) : Op Unit := do
  setCf (byteOf (← getBit l bit val z))

/-- What `BTC`, `BTS` and `BTR` do after `BT`. -/
def btSet (f : {z : ℕ} → BitVec z → BitVec z → BitVec z) (bit : Operand) (val : Place) (z : ℕ) :
    Op Unit := do
  bt l bit val z
  let v ← get l val z
  set l val (f v (← msk l bit z))

def btc (bit : Operand) (val : Place) (z : ℕ) : Op Unit := btSet l (· ^^^ ·) bit val z
def bts (bit : Operand) (val : Place) (z : ℕ) : Op Unit := btSet l (· ||| ·) bit val z
def btr (bit : Operand) (val : Place) (z : ℕ) : Op Unit := btSet l (fun v m ↦ v &&& ~~~m) bit val z

/-- The common text of `BSF` and `BSR`. -/
def bitScan (index : {z : ℕ} → BitVec z → BitVec z) (src : Operand) (dst : Place) (z : ℕ) :
    Op Unit := do
  let s ← get l src z
  modifyCpu fun cpu ↦ { cpu.setFlag .zf (s == 0) with zfRes := false }
  let m ← Exec.get
  if !m.cpu.flag .zf then do
    let s ← get l src z
    set l dst (index s)

/-- `__builtin_ctz` -/
def lowest {z : ℕ} (s : BitVec z) : BitVec z := BitVec.ofNat z (builtinCtz (s.setWidth 32))

/-- `z - __builtin_clz` -/
def highest {z : ℕ} (s : BitVec z) : BitVec z :=
  BitVec.ofInt z ((z : ℤ) - builtinClz (s.setWidth 32))

def bsf (src : Operand) (dst : Place) (z : ℕ) : Op Unit := bitScan l lowest src dst z
def bsr (src : Operand) (dst : Place) (z : ℕ) : Op Unit := bitScan l highest src dst z

/-! String instructions. -/

/-- `BUMP_SI` and `BUMP_DI` -/
def bump (r : Reg32) (z : ℕ) : Op Unit := modifyCpu fun cpu ↦
  cpu.setReg r
    (if !cpu.flag .df then cpu.regs r + BitVec.ofNat 32 (z / 8)
      else cpu.regs r - BitVec.ofNat 32 (z / 8))

inductive Str
  | movs
  | stos
  | lods
  | scas
  | cmps
deriving DecidableEq

def str (z : ℕ) : Str → Op Unit
  | .movs => do
    let m ← Exec.get
    memWrite (m.cpu.regs .edi) (← memRead (m.cpu.regs .esi) z)
    bump .esi z
    bump .edi z
  | .stos => do
    let m ← Exec.get
    memWrite (m.cpu.regs .edi) (← get l (.place (.reg .eax)) z)
    bump .edi z
  | .lods => do
    let m ← Exec.get
    set l (.reg .eax) (← memRead (m.cpu.regs .esi) z)
    bump .esi z
  | .scas => do
    cmp l (.place (.reg .eax)) .memDi z
    bump .edi z
  | .cmps => do
    cmp l .memDi .memSi z
    bump .esi z
    bump .edi z

inductive Rep
  | rep
  | repnz
  | repz
deriving DecidableEq

/-- The condition of the `break`. -/
def Rep.breaks (cpu : CpuState) : Rep → Bool
  | .rep => false
  | .repnz => cpu.ZF
  | .repz => !cpu.ZF

/-- The loop of `REP`, `REPNZ` and `REPZ`, which counts `ecx` down to zero, so that
it is entered no more often than that. -/
def repLoop (kind : Rep) (op : Str) (z : ℕ) : ℕ → Op Unit
  | 0 => pure ()
  | n + 1 => do
    let m ← Exec.get
    if m.cpu.regs .ecx ≠ 0 then do
      str l z op
      modifyCpu fun cpu ↦ cpu.setReg .ecx (cpu.regs .ecx - 1)
      let m ← Exec.get
      if kind.breaks m.cpu then pure () else repLoop kind op z n

def repStr (kind : Rep) (op : Str) (z : ℕ) : Op Unit := do
  let m ← Exec.get
  repLoop l kind op z (m.cpu.regs .ecx).toNat

/-! The rest. -/

def cmpxchg (src dst : Place) (z : ℕ) : Op Unit := do
  cmp l (.place (.reg .eax)) dst z
  if ← holds .E false then mov l src dst z else mov l dst (.reg .eax) z

def xadd (src dst : Place) (z : ℕ) : Op Unit := do
  xchg l src dst z
  add l src dst z

def builtinBswap32 (x : Dword) : Dword :=
  x.extractLsb' 0 8 ++ x.extractLsb' 8 8 ++ x.extractLsb' 16 8 ++ x.extractLsb' 24 8

def bswap (dst : Place) : Op Unit := do
  set l dst (builtinBswap32 (← get l dst 32))

/-- `SET` and `SETN` -/
def setCond (cond : Cond) (negated : Bool) (val : Place) : Op Unit := do
  set l val (byteOf (← holds cond negated))

/-- `CMOV` and `CMOVN` -/
def cmov (cond : Cond) (negated : Bool) (dst : Operand) (src : Place) (z : ℕ) : Op Unit := do
  if ← holds cond negated then mov l dst src z

def popf : Op Unit := do
  pop l .eflags 32
  modifyCpu CpuState.expandFlags

def pushf : Op Unit := do
  modifyCpu CpuState.collapseFlags
  push l (.place .eflags) l.oz

def setDf (b : Bool) : Op Unit := modifyCpu fun cpu ↦ cpu.setFlag .df b

def ahFlagMask : Dword := 0b11010101

def sahf : Op Unit := do
  modifyCpu fun cpu ↦ { cpu with eflags := cpu.eflags &&& (0xffffff00 ||| ~~~ahFlagMask) }
  modifyCpu fun cpu ↦
    { cpu with eflags := cpu.eflags ||| (((cpu.regs .eax >>> 8) &&& 0xff) &&& ahFlagMask) }
  modifyCpu CpuState.expandFlags

def rdtsc (tsc : Qword) : Op Unit := do
  modifyCpu fun cpu ↦ cpu.setReg .eax (tsc.setWidth 32)
  modifyCpu fun cpu ↦ cpu.setReg .edx ((tsc >>> 32).setWidth 32)

/-- `do_cpuid` -/
def cpuid : Op Unit := modifyCpu fun cpu ↦
  if cpu.regs .eax = 0 then
    (((cpu.setReg .eax 1).setReg .ebx 0x756e6547).setReg .edx 0x49656e69).setReg .ecx 0x6c65746e
  else (((cpu.setReg .eax 0).setReg .ebx 0).setReg .ecx 0).setReg .edx 0

end Interp

end Isl.Emu
