import Isl.Emu.Interp

/-! The instruction macros of `emu/interp/sse.h` and `emu/interp/fpu.h`. -/

namespace Isl.Emu

open Isl.Lib

/-- What is left to the compiler and the machine below it: the conversions of its
floating point types, `atan2`, and the time stamp. -/
structure Host where
  floatToDouble : BitVec 32 → Double
  doubleToFloat : Double → BitVec 32
  doubleToInt32 : Double → Dword
  atan2 : Double → Double → Double
  tsc : Qword

namespace Interp

variable (h : Host) (l : Locals)

/-! SSE. -/

/-- The halves of an `xmm_reg`. -/
def qw (x : BitVec 128) (i : ℕ) : Qword := x.extractLsb' (64 * i) 64

/-- A macro that works on both halves. -/
def lanes (f : Qword → Qword → Qword) (src : Operand) (dst : Place) : Op Unit := do
  let s ← get l src 128
  let d ← get l dst 128
  set l dst (f (qw d 1) (qw s 1) ++ f (qw d 0) (qw s 0))

def xorp (src : Operand) (dst : Place) : Op Unit := lanes l (· ^^^ ·) src dst
def padd (src : Operand) (dst : Place) : Op Unit := lanes l (· + ·) src dst
def psub (src : Operand) (dst : Place) : Op Unit := lanes l (· - ·) src dst

/-- `CMPEQ` -/
def cmpeq (src dst : Dword) : Dword := if dst = src then BitVec.allOnes 32 else src

def pcmpeqd (src : Operand) (dst : Place) : Op Unit := do
  let s ← get l src 128
  let d ← get l dst 128
  let lane (i : ℕ) : Dword := cmpeq (s.extractLsb' (32 * i) 32) (d.extractLsb' (32 * i) 32)
  set l dst (lane 3 ++ lane 2 ++ lane 1 ++ lane 0)

def psrlq (count : Operand) (dst : Place) : Op Unit := do
  let d ← get l dst 128
  let n ← get l count l.oz
  if 64 ≤ n.toNat then Exec.wrong .shiftTooFar
  else set l dst (qw d 1 >>> n.toNat ++ qw d 0 >>> n.toNat)

def movq (src : Operand) (dst : Place) : Op Unit := do
  let d ← get l dst 128
  let s ← get l src 128
  set l dst ((if isMemory l dst then qw d 1 else 0) ++ qw s 0)

def movd (src : Operand) (dst : Place) : Op Unit := do
  let s ← get l src 128
  set l dst (s.setWidth 32)

def cvttsd2si (dst : Place) : Op Unit := do
  let s ← get l (.place .memAddr) 64
  set l dst (h.doubleToInt32 s)

end Interp

/-! The x87 unit. -/

namespace CpuState

variable (cpu : CpuState)

/-- The field `top` of `fsw`. -/
def top : BitVec 3 := cpu.fsw.extractLsb' 11 3

def setFsw (fsw : Word) : CpuState := { cpu with fsw := fsw }

def setTop (t : BitVec 3) : CpuState :=
  cpu.setFsw ((cpu.fsw &&& ~~~(7#16 <<< 11)) ||| t.setWidth 16 <<< 11)

/-- One of the bits `c0`, `c1`, `c2` and `c3` of `fsw`, by its place. -/
def setC (i : ℕ) (b : Bool) : CpuState :=
  cpu.setFsw (if b then cpu.fsw ||| 1#16 <<< i else cpu.fsw &&& ~~~(1#16 <<< i))

end CpuState

def c0 : ℕ := 8
def c1 : ℕ := 9
def c2 : ℕ := 10
def c3 : ℕ := 14

/-- The element that `ST(i)` names, if `fp` has it. -/
def stIndex (cpu : CpuState) (i : ℕ) : Option (Fin 8) :=
  if h : cpu.top.toNat + i < 8 then some ⟨_, h⟩ else none

/-- The value of `ST(i)`. -/
def st (i : ℕ) : Op Float80 := do
  let m ← Exec.get
  match stIndex m.cpu i with
  | some j => pure (m.cpu.fp j)
  | none => Exec.wrong .outOfBounds

/-- An assignment to `ST(i)`. -/
def setSt (i : ℕ) (f : Float80) : Op Unit := do
  let m ← Exec.get
  match stIndex m.cpu i with
  | some j => modifyCpu fun cpu ↦ { cpu with fp := Function.update cpu.fp j f }
  | none => Exec.wrong .outOfBounds

/-- `cpu->top--` -/
def topDown : Op Unit := modifyCpu fun cpu ↦ cpu.setTop (cpu.top - 1)

def roundingMode : Op RoundingMode := do
  let m ← Exec.get
  pure m.rounding

/-- An operation of `emu/float80.c` under the rounding mode of the moment. -/
def f80 (x : RoundingMode → Option Float80) : Op Float80 := do
  Exec.ofOption .noResult (x (← roundingMode))

inductive FpuArith
  | add
  | sub
  | subr
  | mul
  | div
  | divr
deriving DecidableEq

/-- The new value of the destination. -/
def FpuArith.eval (mode : RoundingMode) (dst src : Float80) : FpuArith → Option Float80
  | .add => f80Add mode dst src
  | .sub => f80Sub mode dst src
  | .subr => f80Sub mode src dst
  | .mul => some (f80Mul mode dst src)
  | .div => f80Div mode dst src
  | .divr => f80Div mode src dst

inductive FpuConst
  | one
  | log2t
  | log2e
  | pi
  | log2
  | ln2
  | zero
deriving DecidableEq

/-- `fpu_consts` -/
def fpuConsts : FpuConst → Float80
  | .one => ⟨0x8000000000000000, 0x3fff⟩
  | .log2t => ⟨0xd49a784bcd1b8afe, 0x4000⟩
  | .log2e => ⟨0xb8aa3b295c17f0bc, 0x3fff⟩
  | .pi => ⟨0xc90fdaa22168c235, 0x4000⟩
  | .log2 => ⟨0x9a209a84fbcff799, 0x3ffd⟩
  | .ln2 => ⟨0xb17217f7d1cf79ac, 0x3ffe⟩
  | .zero => ⟨0x0000000000000000, 0x0000⟩

/-- The types of numbers in memory. -/
inductive Real
  | float32
  | float64
  | float80
deriving DecidableEq

def Real.width : Real → ℕ
  | .float32 => 32
  | .float64 => 64
  | .float80 => 80

/-- `f80_from_float` -/
def f80FromReal (h : Host) : (z : Real) → BitVec z.width → Option Float80
  | .float32, x => f80FromDouble (h.floatToDouble x)
  | .float64, x => f80FromDouble x
  | .float80, x => some ⟨x.setWidth 64, x.extractLsb' 64 16⟩

/-- `f80_to_float` -/
def f80ToReal (h : Host) (mode : RoundingMode) (f : Float80) : (z : Real) → BitVec z.width
  | .float32 => h.doubleToFloat (f80ToDouble mode f)
  | .float64 => f80ToDouble mode f
  | .float80 => f.signExp ++ f.signif

namespace Interp

variable (h : Host) (l : Locals)

/-- `modrm.rm_opcode`, the number in `ST_i`. -/
def stI : ℕ := l.modrm.rmOpcode

def fpush (f : Float80) : Op Unit := do
  topDown
  setSt 0 f

def fpop : Op Unit := modifyCpu fun cpu ↦ cpu.setTop (cpu.top + 1)

def fxch : Op Unit := do
  let ftmp ← st 0
  setSt 0 (← st (stI l))
  setSt (stI l) ftmp

/-- `FADD` and its like, on two registers of the stack. -/
def farith (op : FpuArith) (src dst : ℕ) : Op Unit := do
  let d ← st dst
  let s ← st src
  setSt dst (← f80 fun mode ↦ op.eval mode d s)

/-- `FIADD` and its like. -/
def fiarith (op : FpuArith) (z : ℕ) : Op Unit := do
  let d ← st 0
  let v ← get l (.place .memAddr) z
  let s ← f80 fun _ ↦ f80FromInt (v.signExtend 64)
  setSt 0 (← f80 fun mode ↦ op.eval mode d s)

/-- `f80_from_float(get(val,z),z)` -/
def getReal (z : Real) : Op Float80 := do
  let v ← get l (.place .memAddr) z.width
  f80 fun _ ↦ f80FromReal h z v

/-- `FADDM` and its like. -/
def farithm (op : FpuArith) (z : Real) : Op Unit := do
  let d ← st 0
  let s ← getReal h l z
  setSt 0 (← f80 fun mode ↦ op.eval mode d s)

def fchs : Op Unit := do
  setSt 0 (f80Neg (← st 0))

def fabs : Op Unit := do
  setSt 0 (f80Abs (← st 0))

def fprem : Op Unit := do
  let a ← st 0
  let b ← st 1
  setSt 0 (← f80 fun mode ↦ f80Mod mode a b)

/-- `f80_lt` with its assertions. -/
def lt (a b : Float80) : Op Bool := do
  Exec.ofOption .noResult (f80Lt (← roundingMode) a b)

def fucomi : Op Unit := do
  let a ← st 0
  let b ← st (stI l)
  modifyCpu fun cpu ↦ cpu.setFlag .zf (f80Eq a b)
  let a ← st 0
  let b ← st (stI l)
  setCf (byteOf (← lt a b))
  modifyCpu fun cpu ↦ { cpu.setFlag .pf false with pfRes := false }

/-- `F_COMPARE` -/
def fCompare (x : Op Float80) : Op Unit := do
  let a ← st 0
  let b ← x
  let less ← lt a b
  modifyCpu fun cpu ↦ cpu.setC c0 less
  modifyCpu fun cpu ↦ cpu.setC c1 false
  modifyCpu fun cpu ↦ cpu.setC c2 false
  let a ← st 0
  let b ← x
  modifyCpu fun cpu ↦ cpu.setC c3 (f80Eq a b)

def fcom : Op Unit := fCompare (st (stI l))

def fcomm (z : Real) : Op Unit := fCompare (getReal h l z)

def fild (z : ℕ) : Op Unit := do
  let v ← get l (.place .memAddr) z
  fpush (← f80 fun _ ↦ f80FromInt (v.signExtend 64))

def fld : Op Unit := do
  fpush (← st (stI l))

def fldm (z : Real) : Op Unit := do
  fpush (← getReal h l z)

def fldc (what : FpuConst) : Op Unit := fpush (fpuConsts what)

def fstm (z : Real) : Op Unit := do
  let f ← st 0
  set l .memAddr (f80ToReal h (← roundingMode) f z)

def fist (z : ℕ) : Op Unit := do
  let f ← st 0
  set l .memAddr ((f80ToInt (← roundingMode) f).setWidth z)

def fst : Op Unit := do
  setSt (stI l) (← st 0)

def fstsw (dst : Place) : Op Unit := do
  let m ← Exec.get
  set l dst m.cpu.fsw

def fstcw : Op Unit := do
  let m ← Exec.get
  set l .memAddr m.cpu.fcw

def fldcw : Op Unit := do
  let fcw ← get l (.place .memAddr) 16
  modifyCpu fun cpu ↦ { cpu with fcw := fcw }

def fpatan : Op Unit := do
  let a ← st 1
  let b ← st 0
  let mode ← roundingMode
  setSt 1 (← f80 fun _ ↦ f80FromDouble (h.atan2 (f80ToDouble mode a) (f80ToDouble mode b)))
  fpop

end Interp

end Isl.Emu
