import Isl.Emu.InterpFpu
import Isl.Lib.Loop

/-!
The decoder of `emu/decode.h`, which the preprocessor makes into `cpu_step32` and
`cpu_step16`, and the two of them as one function.
-/

namespace Isl.Emu

open Isl.Lib Interp
open Memory (Byte)

/-! Instructions: the macro that a case of the decoder ends in, with its arguments. -/

inductive ArithOp
  | add
  | or
  | adc
  | sbb
  | and
  | sub
  | xor
  | cmp
deriving DecidableEq

inductive ShiftOp
  | rol
  | ror
  | shl
  | shr
  | sar
deriving DecidableEq

/-- `st_0` and `st_i` -/
inductive StReg
  | st0
  | stI
deriving DecidableEq

inductive FpuOp
  | arith (op : FpuArith) (src dst : StReg)
  | iarith (op : FpuArith) (z : ℕ)
  | arithm (op : FpuArith) (z : Real)
  | chs
  | abs
  | prem
  | ucomi
  | com
  | comm (z : Real)
  | ild (z : ℕ)
  | ld
  | ldm (z : Real)
  | ldc (what : FpuConst)
  | stm (z : Real)
  | ist (z : ℕ)
  | st
  | xch
  | stsw
  | stcw
  | ldcw
  | patan
deriving DecidableEq

/-- `fpu` is one macro of the x87 unit with the number of `FPOP` after it. -/
inductive Insn
  | nop
  | undefined
  | mov (src : Operand) (dst : Place) (z : ℕ)
  | movzx (src : Operand) (dst : Place) (zs zd : ℕ)
  | movsx (src : Operand) (dst : Place) (zs zd : ℕ)
  | xchg (src dst : Place) (z : ℕ)
  | push (thing : Operand) (z : ℕ)
  | pop (thing : Place) (z : ℕ)
  | leave
  | int (code : Operand)
  | test (src : Operand) (dst : Place) (z : ℕ)
  | arith (op : ArithOp) (src : Operand) (dst : Place) (z : ℕ)
  | inc (val : Place) (z : ℕ)
  | dec (val : Place) (z : ℕ)
  | not (val : Place) (z : ℕ)
  | neg (val : Place) (z : ℕ)
  | mul1 (val : Place) (z : ℕ)
  | imul1 (val : Place) (z : ℕ)
  | imul2 (val : Operand) (reg : Place) (z : ℕ)
  | imul3 (factor src : Operand) (dst : Place) (z : ℕ)
  | div (val : Place) (z : ℕ)
  | idiv (val : Place) (z : ℕ)
  | cvt
  | cvte
  | call (loc : Operand)
  | callRel (offset : Operand)
  | jmp (loc : Operand)
  | jmpRel (offset : Operand)
  | jRel (cond : Cond) (negated : Bool) (offset : Operand)
  | jcxzRel (offset : Operand)
  | retNear (args : Operand)
  | shift (op : ShiftOp) (count : Operand) (val : Place) (z : ℕ)
  | shrd (count extra : Operand) (dst : Place) (z : ℕ)
  | shld (count extra : Operand) (dst : Place) (z : ℕ)
  | bt (bit : Operand) (val : Place) (z : ℕ)
  | btc (bit : Operand) (val : Place) (z : ℕ)
  | bts (bit : Operand) (val : Place) (z : ℕ)
  | btr (bit : Operand) (val : Place) (z : ℕ)
  | bsf (src : Operand) (dst : Place) (z : ℕ)
  | bsr (src : Operand) (dst : Place) (z : ℕ)
  | str (op : Str) (z : ℕ)
  | repStr (kind : Rep) (op : Str) (z : ℕ)
  | cmpxchg (src dst : Place) (z : ℕ)
  | xadd (src dst : Place) (z : ℕ)
  | bswap (dst : Place)
  | setCond (cond : Cond) (negated : Bool) (val : Place)
  | cmov (cond : Cond) (negated : Bool) (dst : Operand) (src : Place) (z : ℕ)
  | popf
  | pushf
  | setDf (b : Bool)
  | sahf
  | rdtsc
  | cpuid
  | xorp (src : Operand) (dst : Place)
  | padd (src : Operand) (dst : Place)
  | psub (src : Operand) (dst : Place)
  | psrlq (count : Operand) (dst : Place)
  | pcmpeqd (src : Operand) (dst : Place)
  | movq (src : Operand) (dst : Place)
  | movd (src : Operand) (dst : Place)
  | cvttsd2si (dst : Place)
  | fpu (op : FpuOp) (pops : ℕ)
deriving DecidableEq

section Exec

variable (h : Host) (l : Locals)

def StReg.index : StReg → ℕ
  | .st0 => 0
  | .stI => Interp.stI l

def execArith (src : Operand) (dst : Place) (z : ℕ) : ArithOp → Op Unit
  | .add => add l src dst z
  | .or => Interp.or l src dst z
  | .adc => adc l src dst z
  | .sbb => sbb l src dst z
  | .and => Interp.and l src dst z
  | .sub => sub l src dst z
  | .xor => Interp.xor l src dst z
  | .cmp => cmp l src dst z

def execShift (count : Operand) (val : Place) (z : ℕ) : ShiftOp → Op Unit
  | .rol => rol l count val z
  | .ror => ror l count val z
  | .shl => shl l count val z
  | .shr => shr l count val z
  | .sar => sar l count val z

def execFpu : FpuOp → Op Unit
  | .arith op src dst => farith op (src.index l) (dst.index l)
  | .iarith op z => fiarith l op z
  | .arithm op z => farithm h l op z
  | .chs => fchs
  | .abs => fabs
  | .prem => fprem
  | .ucomi => fucomi l
  | .com => fcom l
  | .comm z => fcomm h l z
  | .ild z => fild l z
  | .ld => fld l
  | .ldm z => fldm h l z
  | .ldc what => fldc what
  | .stm z => fstm h l z
  | .ist z => fist l z
  | .st => Interp.fst l
  | .xch => fxch l
  | .stsw => fstsw l (.reg .eax)
  | .stcw => fstcw l
  | .ldcw => fldcw l
  | .patan => fpatan h

def exec : Insn → Op Unit
  | .nop => pure ()
  | .undefined => Exec.stop .undefined
  | .mov src dst z => mov l src dst z
  | .movzx src dst zs zd => movzx l src dst zs zd
  | .movsx src dst zs zd => movsx l src dst zs zd
  | .xchg src dst z => xchg l src dst z
  | .push thing z => push l thing z
  | .pop thing z => pop l thing z
  | .leave => do
    mov l (Place.reg .ebp) (.reg .esp) l.oz
    pop l (.reg .ebp) l.oz
  | .int code => do
    Exec.stop (.int (← get l code 8))
  | .test src dst z => test l src dst z
  | .arith op src dst z => execArith l src dst z op
  | .inc val z => inc l val z
  | .dec val z => dec l val z
  | .not val z => Interp.not l val z
  | .neg val z => Interp.neg l val z
  | .mul1 val z => mul1 l val z
  | .imul1 val z => imul1 l val z
  | .imul2 val reg z => imul2 l val reg z
  | .imul3 factor src dst z => imul3 l factor src dst z
  | .div val z => div l val z
  | .idiv val z => idiv l val z
  | .cvt => cvt l
  | .cvte => cvte l
  | .call loc => call l loc
  | .callRel offset => callRel l offset
  | .jmp loc => jmp l loc
  | .jmpRel offset => jmpRel l offset
  | .jRel cond negated offset => jRel l cond negated offset
  | .jcxzRel offset => jcxzRel l offset
  | .retNear args => retNear l args
  | .shift op count val z => execShift l count val z op
  | .shrd count extra dst z => shrd l count extra dst z
  | .shld count extra dst z => shld l count extra dst z
  | .bt bit val z => bt l bit val z
  | .btc bit val z => btc l bit val z
  | .bts bit val z => bts l bit val z
  | .btr bit val z => btr l bit val z
  | .bsf src dst z => bsf l src dst z
  | .bsr src dst z => bsr l src dst z
  | .str op z => Interp.str l z op
  | .repStr kind op z => repStr l kind op z
  | .cmpxchg src dst z => cmpxchg l src dst z
  | .xadd src dst z => xadd l src dst z
  | .bswap dst => bswap l dst
  | .setCond cond negated val => setCond l cond negated val
  | .cmov cond negated dst src z => cmov l cond negated dst src z
  | .popf => popf l
  | .pushf => pushf l
  | .setDf b => setDf b
  | .sahf => sahf
  | .rdtsc => rdtsc h.tsc
  | .cpuid => cpuid
  | .xorp src dst => xorp l src dst
  | .padd src dst => padd l src dst
  | .psub src dst => psub l src dst
  | .psrlq count dst => psrlq l count dst
  | .pcmpeqd src dst => pcmpeqd l src dst
  | .movq src dst => movq l src dst
  | .movd src dst => movd l src dst
  | .cvttsd2si dst => cvttsd2si h l dst
  | .fpu op pops => do
    execFpu h l op
    fpop.times pops

end Exec

/-! Reading the instruction. -/

/-- `cpu->eip` and the locals `addr`, `modrm` and `imm` while decoding. -/
structure Cursor where
  ip : Dword
  addr : Dword
  modrm : Modrm
  imm : Qword

abbrev Decode := StateT Cursor (Except Stop)

section Decode

variable (code : GuestMem) (cpu : CpuState)

/-- `_READIMM` -/
def readBits (w : ℕ) : Decode (BitVec w) := fun c ↦
  match fetch code c.ip w with
  | .ok (v, ip) => .ok (v, { c with ip := ip })
  | .error _ => .error .fetch

/-- `READINSN` -/
def readInsn : Decode Byte := readBits code 8

/-- `READIMM` and `READIMM16` -/
def readImm (w : ℕ) : Decode Unit := do
  let v ← readBits code w
  modify fun c ↦ { c with imm := v.setWidth 64 }

def readImm8 : Decode Unit := do
  let v ← readBits code 8
  modify fun c ↦ { c with imm := v.signExtend 64 }

def readAddr : Decode Unit := do
  let v ← readBits code 32
  modify fun c ↦ { c with addr := c.addr + v }

def readModrm : Decode Unit := fun c ↦
  match modrmCompute code cpu c.ip c.addr c.modrm with
  | .ok (modrm, addr, ip) => .ok ((), { c with ip := ip, addr := addr, modrm := modrm })
  | .error ip => .error (.gpf ip)

def readModrmMem : Decode Unit := do
  readModrm code cpu
  if (← MonadState.get).modrm.type = .modrmReg then throw .undefined

def withModrm (insn : Insn) : Decode Insn := do
  readModrm code cpu
  pure insn

def withModrmMem (insn : Insn) : Decode Insn := do
  readModrmMem code cpu
  pure insn

def withImm (w : ℕ) (insn : Insn) : Decode Insn := do
  readImm code w
  pure insn

def withImm8 (insn : Insn) : Decode Insn := do
  readImm8 code
  pure insn

def withModrmImm (w : ℕ) (insn : Insn) : Decode Insn := do
  readModrm code cpu
  withImm code w insn

def withModrmImm8 (insn : Insn) : Decode Insn := do
  readModrm code cpu
  withImm8 code insn

/-- `modrm.opcode` -/
def opcode : Decode ℕ := do
  pure (← MonadState.get).modrm.opcode

/-! The groups of instructions, by the number in their opcode. -/

def arithOp : ℕ → ArithOp
  | 0 => .add
  | 1 => .or
  | 2 => .adc
  | 3 => .sbb
  | 4 => .and
  | 5 => .sub
  | 6 => .xor
  | _ => .cmp

/-- Of four bits, the lowest says whether the condition is negated. -/
def condOf (n : ℕ) : Cond :=
  match n / 2 with
  | 0 => .O
  | 1 => .B
  | 2 => .E
  | 3 => .BE
  | 4 => .S
  | 5 => .P
  | 6 => .L
  | _ => .LE

def negatedOf (n : ℕ) : Bool := n % 2 == 1

/-- The register of an opcode that ends in its number. -/
def regOf (n : ℕ) : Reg32 := .ofBits (BitVec.ofNat 3 n)

/-- `MAKE_OP`, by the last three bits. -/
def makeOp (oz : ℕ) (op : ArithOp) : ℕ → Decode Insn
  | 0 => withModrm code cpu (.arith op Place.modrmReg .modrmVal 8)
  | 1 => withModrm code cpu (.arith op Place.modrmReg .modrmVal oz)
  | 2 => withModrm code cpu (.arith op Place.modrmVal .modrmReg 8)
  | 3 => withModrm code cpu (.arith op Place.modrmVal .modrmReg oz)
  | 4 => withImm8 code (.arith op .imm (.reg .eax) 8)
  | _ => withImm code oz (.arith op .imm (.reg .eax) oz)

/-- `GRP1` -/
def grp1 (src : Operand) (dst : Place) (z : ℕ) : Decode Insn := do
  pure (.arith (arithOp (← opcode)) src dst z)

/-- `GRP1_ATOMIC` -/
def grp1Atomic (src : Operand) (dst : Place) (z : ℕ) : Decode Insn := do
  let n ← opcode
  if n = 7 then pure .undefined else pure (.arith (arithOp n) src dst z)

/-- `GRP2`, where `RCL` and `RCR` are undefined. -/
def grp2 (count : Operand) (val : Place) (z : ℕ) : Decode Insn := do
  match ← opcode with
  | 0 => pure (.shift .rol count val z)
  | 1 => pure (.shift .ror count val z)
  | 2 => pure .undefined
  | 3 => pure .undefined
  | 5 => pure (.shift .shr count val z)
  | 7 => pure (.shift .sar count val z)
  | _ => pure (.shift .shl count val z)

/-- `GRP3`, given how it reads an immediate. -/
def grp3 (readImm : Decode Unit) (val : Place) (z : ℕ) : Decode Insn := do
  match ← opcode with
  | 2 => pure (.not val z)
  | 3 => pure (.neg val z)
  | 4 => pure (.mul1 .modrmVal z)
  | 5 => pure (.imul1 .modrmVal z)
  | 6 => pure (.div .modrmVal z)
  | 7 => pure (.idiv .modrmVal z)
  | _ => do
    readImm
    pure (.test .imm val z)

/-- `GRP5` -/
def grp5 (val : Place) (z : ℕ) : Decode Insn := do
  match ← opcode with
  | 0 => pure (.inc val z)
  | 1 => pure (.dec val z)
  | 2 => pure (.call val)
  | 4 => pure (.jmp val)
  | 6 => pure (.push val z)
  | _ => pure .undefined

/-- `GRP5_ATOMIC` -/
def grp5Atomic (val : Place) (z : ℕ) : Decode Insn := do
  match ← opcode with
  | 0 => pure (.inc val z)
  | 1 => pure (.dec val z)
  | _ => pure .undefined

/-- `GRP8` -/
def grp8 (bit : Operand) (val : Place) (z : ℕ) : Decode Insn := do
  match ← opcode with
  | 4 => pure (.bt bit val z)
  | 5 => pure (.bts bit val z)
  | 6 => pure (.btr bit val z)
  | 7 => pure (.btc bit val z)
  | _ => pure .undefined

/-! The x87 unit, by `insn << 4 | modrm.opcode`. -/

def fpuMem : ℕ → Insn
  | 0xd80 => .fpu (.arithm .add .float32) 0
  | 0xd81 => .fpu (.arithm .mul .float32) 0
  | 0xd82 => .fpu (.comm .float32) 0
  | 0xd83 => .fpu (.comm .float32) 1
  | 0xd84 => .fpu (.arithm .sub .float32) 0
  | 0xd85 => .fpu (.arithm .subr .float32) 0
  | 0xd86 => .fpu (.arithm .div .float32) 0
  | 0xd87 => .fpu (.arithm .divr .float32) 0
  | 0xd90 => .fpu (.ldm .float32) 0
  | 0xd92 => .fpu (.stm .float32) 0
  | 0xd93 => .fpu (.stm .float32) 1
  | 0xd95 => .fpu .ldcw 0
  | 0xd97 => .fpu .stcw 0
  | 0xda0 => .fpu (.iarith .add 32) 0
  | 0xda1 => .fpu (.iarith .mul 32) 0
  | 0xda4 => .fpu (.iarith .sub 32) 0
  | 0xda5 => .fpu (.iarith .subr 32) 0
  | 0xda6 => .fpu (.iarith .div 32) 0
  | 0xda7 => .fpu (.iarith .divr 32) 0
  | 0xdb0 => .fpu (.ild 32) 0
  | 0xdb2 => .fpu (.ist 32) 0
  | 0xdb3 => .fpu (.ist 32) 1
  | 0xdb7 => .fpu (.stm .float80) 1
  | 0xdb5 => .fpu (.ldm .float80) 0
  | 0xdc0 => .fpu (.arithm .add .float64) 0
  | 0xdc1 => .fpu (.arithm .mul .float64) 0
  | 0xdc2 => .fpu (.comm .float64) 0
  | 0xdc3 => .fpu (.comm .float64) 1
  | 0xdd0 => .fpu (.ldm .float64) 0
  | 0xdc4 => .fpu (.arithm .sub .float64) 0
  | 0xdc5 => .fpu (.arithm .subr .float64) 0
  | 0xdc6 => .fpu (.arithm .div .float64) 0
  | 0xdc7 => .fpu (.arithm .divr .float64) 0
  | 0xdd2 => .fpu (.stm .float64) 0
  | 0xdd3 => .fpu (.stm .float64) 1
  | 0xde1 => .fpu (.iarith .mul 16) 0
  | 0xde6 => .fpu (.iarith .div 16) 0
  | 0xde7 => .fpu (.iarith .divr 16) 0
  | 0xdf0 => .fpu (.ild 16) 0
  | 0xdf3 => .fpu (.ist 16) 1
  | 0xdf5 => .fpu (.ild 64) 0
  | 0xdf7 => .fpu (.ist 64) 1
  | _ => .undefined

/-- By `insn << 8 | modrm.opcode << 4 | modrm.rm_opcode`. -/
def fpuWhole : ℕ → Insn
  | 0xd940 => .fpu .chs 0
  | 0xd941 => .fpu .abs 0
  | 0xd944 => .fpu .chs 0
  | 0xd950 => .fpu (.ldc .one) 0
  | 0xd951 => .fpu (.ldc .log2t) 0
  | 0xd952 => .fpu (.ldc .log2e) 0
  | 0xd953 => .fpu (.ldc .pi) 0
  | 0xd954 => .fpu (.ldc .log2) 0
  | 0xd955 => .fpu (.ldc .ln2) 0
  | 0xd956 => .fpu (.ldc .zero) 0
  | 0xd963 => .fpu .patan 0
  | 0xd970 => .fpu .prem 0
  | 0xde31 => .fpu .com 2
  | 0xdf40 => .fpu .stsw 0
  -- among them `FXAM`, `F2XM1`, `FYL2X`, `FSQRT`, `FRNDINT` and `FSCALE`
  | _ => .undefined

def fpuReg (insn opcode rmOpcode : ℕ) : Insn :=
  match insn * 16 + opcode with
  | 0xd80 => .fpu (.arith .add .stI .st0) 0
  | 0xd81 => .fpu (.arith .mul .stI .st0) 0
  | 0xd82 => .fpu .com 0
  | 0xd83 => .fpu .com 1
  | 0xd84 => .fpu (.arith .sub .stI .st0) 0
  | 0xd85 => .fpu (.arith .subr .stI .st0) 0
  | 0xd86 => .fpu (.arith .div .stI .st0) 0
  | 0xd87 => .fpu (.arith .divr .stI .st0) 0
  | 0xd90 => .fpu .ld 0
  | 0xd91 => .fpu .xch 0
  | 0xdb5 => .fpu .ucomi 0
  | 0xdb6 => .fpu .ucomi 0
  | 0xdc0 => .fpu (.arith .add .st0 .stI) 0
  | 0xdc1 => .fpu (.arith .mul .st0 .stI) 0
  | 0xdc4 => .fpu (.arith .subr .st0 .stI) 0
  | 0xdc5 => .fpu (.arith .sub .st0 .stI) 0
  | 0xdc6 => .fpu (.arith .divr .st0 .stI) 0
  | 0xdc7 => .fpu (.arith .div .st0 .stI) 0
  | 0xdd3 => .fpu .st 1
  | 0xdd4 => .fpu .com 0
  | 0xdd5 => .fpu .com 1
  | 0xda5 => .fpu .com 2
  | 0xde0 => .fpu (.arith .add .st0 .stI) 1
  | 0xde1 => .fpu (.arith .mul .st0 .stI) 1
  | 0xde4 => .fpu (.arith .subr .st0 .stI) 1
  | 0xde5 => .fpu (.arith .sub .st0 .stI) 1
  | 0xde6 => .fpu (.arith .divr .st0 .stI) 1
  | 0xde7 => .fpu (.arith .div .st0 .stI) 1
  | 0xdf5 => .fpu .ucomi 1
  | _ => fpuWhole (insn * 256 + opcode * 16 + rmOpcode)

def fpu (insn : ℕ) : Decode Insn := do
  readModrm code cpu
  let modrm := (← MonadState.get).modrm
  if modrm.type ≠ .modrmReg then pure (fpuMem (insn * 16 + modrm.opcode))
  else pure (fpuReg insn modrm.opcode modrm.rmOpcode)

/-! The tables of opcodes. -/

/-- After `0x0f`. -/
def twoByte (oz : ℕ) (insn : Byte) : Decode Insn :=
  let n := insn.toNat
  match n with
  | 0x28 => withModrm code cpu (.mov Place.modrmVal .modrmReg 128)
  | 0x29 => withModrm code cpu (.mov Place.modrmReg .modrmVal 128)
  | 0x31 => pure .rdtsc
  | 0x57 => withModrm code cpu (.xorp Place.modrmVal .modrmReg)
  | 0x73 => withModrmImm8 code cpu (.psrlq .imm .modrmVal)
  | 0x76 => withModrm code cpu (.pcmpeqd Place.modrmReg .modrmVal)
  | 0x7e =>
    if oz = 16 then withModrm code cpu (.movd Place.modrmReg .modrmVal) else pure .undefined
  | 0xa2 => pure .cpuid
  | 0xa3 => withModrm code cpu (.bt Place.modrmReg .modrmVal oz)
  | 0xa4 => withModrmImm8 code cpu (.shld .imm Place.modrmReg .modrmVal oz)
  | 0xa5 => withModrm code cpu (.shld (Place.reg .ecx) Place.modrmReg .modrmVal oz)
  | 0xab => withModrm code cpu (.bts Place.modrmReg .modrmVal oz)
  | 0xac => withModrmImm8 code cpu (.shrd .imm Place.modrmReg .modrmVal oz)
  | 0xad => withModrm code cpu (.shrd (Place.reg .ecx) Place.modrmReg .modrmVal oz)
  | 0xaf => withModrm code cpu (.imul2 Place.modrmVal .modrmReg oz)
  | 0xb1 => withModrm code cpu (.cmpxchg .modrmReg .modrmVal oz)
  | 0xb3 => withModrm code cpu (.btr Place.modrmReg .modrmVal oz)
  | 0xb6 => withModrm code cpu (.movzx Place.modrmVal .modrmReg 8 oz)
  | 0xb7 => withModrm code cpu (.movzx Place.modrmVal .modrmReg 16 oz)
  | 0xba => do
    readModrm code cpu
    readImm8 code
    grp8 .imm .modrmVal oz
  | 0xbb => withModrm code cpu (.btc Place.modrmReg .modrmVal oz)
  | 0xbc => withModrm code cpu (.bsf Place.modrmVal .modrmReg oz)
  | 0xbd => withModrm code cpu (.bsr Place.modrmVal .modrmReg oz)
  | 0xbe => withModrm code cpu (.movsx Place.modrmVal .modrmReg 8 oz)
  | 0xbf => withModrm code cpu (.movsx Place.modrmVal .modrmReg 16 oz)
  | 0xc0 => withModrm code cpu (.xadd .modrmReg .modrmVal 8)
  | 0xc1 => withModrm code cpu (.xadd .modrmReg .modrmVal oz)
  | 0xd4 =>
    if oz = 16 then withModrm code cpu (.padd Place.modrmVal .modrmReg) else pure .undefined
  | 0xd6 =>
    if oz = 16 then withModrm code cpu (.movq Place.modrmReg .modrmVal) else pure .undefined
  | 0xfb => withModrm code cpu (.psub Place.modrmVal .modrmReg)
  | _ =>
    if 0x18 ≤ n ∧ n ≤ 0x1f then withModrm code cpu .nop
    else if n / 16 = 4 then
      withModrm code cpu (.cmov (condOf (n % 16)) (negatedOf n) Place.modrmVal .modrmReg oz)
    else if n / 16 = 8 then withImm code oz (.jRel (condOf (n % 16)) (negatedOf n) .imm)
    else if n / 16 = 9 then
      withModrm code cpu (.setCond (condOf (n % 16)) (negatedOf n) .modrmVal)
    else if 0xc8 ≤ n ∧ n ≤ 0xcf ∧ oz ≠ 16 then pure (.bswap (.reg (regOf n)))
    else pure .undefined

/-- After `0xf0`. An unknown second byte does nothing. -/
def locked (oz : ℕ) (insn : Byte) : Decode Insn :=
  let n := insn.toNat
  match n with
  | 0x0f => do
    match (← readInsn code).toNat with
    | 0xb1 => withModrmMem code cpu (.cmpxchg .modrmReg .modrmVal oz)
    | 0xc0 => withModrmMem code cpu (.xadd .modrmReg .modrmVal 8)
    | 0xc1 => withModrmMem code cpu (.xadd .modrmReg .modrmVal oz)
    | _ => pure .nop
  | 0x80 => do
    readModrmMem code cpu
    readImm8 code
    grp1Atomic .imm .modrmVal 8
  | 0x81 => do
    readModrmMem code cpu
    readImm code oz
    grp1Atomic .imm .modrmVal oz
  | 0x83 => do
    readModrmMem code cpu
    readImm8 code
    grp1Atomic .imm .modrmVal oz
  | 0xfe => do
    readModrmMem code cpu
    grp5Atomic .modrmVal 8
  | 0xff => do
    readModrmMem code cpu
    grp5Atomic .modrmVal oz
  | _ =>
    if n < 0x38 ∧ n % 8 = 0 then
      withModrmMem code cpu (.arith (arithOp (n / 8)) Place.modrmReg .modrmVal 8)
    else if n < 0x38 ∧ n % 8 = 1 then
      withModrmMem code cpu (.arith (arithOp (n / 8)) Place.modrmReg .modrmVal oz)
    else pure .undefined

/-- After `0xf2`. -/
def repnz (oz : ℕ) : Decode Insn := do
  match (← readInsn code).toNat with
  | 0x0f => do
    let n := (← readInsn code).toNat
    if n = 0x2c then withModrmMem code cpu (.cvttsd2si .modrmReg)
    else if 0x18 ≤ n ∧ n ≤ 0x1f then withModrm code cpu .nop
    else pure .undefined
  | 0xa6 => pure (.repStr .repnz .cmps 8)
  | 0xa7 => pure (.repStr .repnz .cmps oz)
  | 0xae => pure (.repStr .repnz .scas 8)
  | 0xaf => pure (.repStr .repnz .scas oz)
  | _ => pure .undefined

/-- After `0xf3`. -/
def repz (oz : ℕ) : Decode Insn := do
  match (← readInsn code).toNat with
  | 0x0f => do
    let n := (← readInsn code).toNat
    if n = 0x7e then withModrm code cpu (.movq Place.modrmVal .modrmReg)
    else if 0x18 ≤ n ∧ n ≤ 0x1f then withModrm code cpu .nop
    else if n = 0xbc then withModrm code cpu (.bsf Place.modrmVal .modrmReg oz)
    else if n = 0xbd then withModrm code cpu (.bsr Place.modrmVal .modrmReg oz)
    else pure .undefined
  | 0x90 => pure .nop
  | 0xa4 => pure (.repStr .rep .movs 8)
  | 0xa5 => pure (.repStr .rep .movs oz)
  | 0xa6 => pure (.repStr .repz .cmps 8)
  | 0xa7 => pure (.repStr .repz .cmps oz)
  | 0xaa => pure (.repStr .rep .stos 8)
  | 0xab => pure (.repStr .rep .stos oz)
  | 0xac => pure (.repStr .rep .lods 8)
  | 0xad => pure (.repStr .rep .lods oz)
  | 0xae => pure (.repStr .repz .scas 8)
  | 0xaf => pure (.repStr .repz .scas oz)
  | 0xc3 => pure (.retNear (.const 0))
  | _ => pure .undefined

/-- A move of a segment register, of which only `gs`, number five, is there. -/
def segment (insn : Insn) : Decode Insn := do
  readModrm code cpu
  if (← MonadState.get).modrm.reg ≠ .ebp then pure .undefined else pure insn

/-- The opcodes that are no prefix. -/
def oneByte (oz : ℕ) (insn : Byte) : Decode Insn :=
  let n := insn.toNat
  match n with
  | 0x0f => do
    twoByte code cpu oz (← readInsn code)
  | 0x68 => withImm code oz (.push .imm oz)
  | 0x69 => withModrmImm code cpu oz (.imul3 .imm Place.modrmVal .modrmReg oz)
  | 0x6a => withImm8 code (.push .imm oz)
  | 0x6b => withModrmImm8 code cpu (.imul3 .imm Place.modrmVal .modrmReg oz)
  | 0x80 => do
    readModrm code cpu
    readImm8 code
    grp1 .imm .modrmVal 8
  | 0x81 => do
    readModrm code cpu
    readImm code oz
    grp1 .imm .modrmVal oz
  | 0x83 => do
    readModrm code cpu
    readImm8 code
    grp1 .imm .modrmVal oz
  | 0x84 => withModrm code cpu (.test Place.modrmReg .modrmVal 8)
  | 0x85 => withModrm code cpu (.test Place.modrmReg .modrmVal oz)
  | 0x86 => withModrm code cpu (.xchg .modrmReg .modrmVal 8)
  | 0x87 => withModrm code cpu (.xchg .modrmReg .modrmVal oz)
  | 0x88 => withModrm code cpu (.mov Place.modrmReg .modrmVal 8)
  | 0x89 => withModrm code cpu (.mov Place.modrmReg .modrmVal oz)
  | 0x8a => withModrm code cpu (.mov Place.modrmVal .modrmReg 8)
  | 0x8b => withModrm code cpu (.mov Place.modrmVal .modrmReg oz)
  | 0x8c => segment code cpu (.mov Place.gs .modrmVal 16)
  | 0x8d => withModrmMem code cpu (.mov .addr .modrmReg oz)
  | 0x8e => segment code cpu (.mov Place.modrmVal .gs 16)
  | 0x8f => withModrm code cpu (.pop .modrmVal oz)
  | 0x90 => pure .nop
  | 0x98 => pure .cvte
  | 0x99 => pure .cvt
  | 0x9b => pure .nop
  | 0x9c => pure .pushf
  | 0x9d => pure .popf
  | 0x9e => pure .sahf
  | 0xa0 => do
    readAddr code
    pure (.mov Place.memAddr (.reg .eax) 8)
  | 0xa1 => do
    readAddr code
    pure (.mov Place.memAddr (.reg .eax) oz)
  | 0xa2 => do
    readAddr code
    pure (.mov (Place.reg .eax) .memAddr 8)
  | 0xa3 => do
    readAddr code
    pure (.mov (Place.reg .eax) .memAddr oz)
  | 0xa4 => pure (.str .movs 8)
  | 0xa5 => pure (.str .movs oz)
  | 0xa6 => pure (.str .cmps 8)
  | 0xa7 => pure (.str .cmps oz)
  | 0xa8 => withImm8 code (.test .imm (.reg .eax) 8)
  | 0xa9 => withImm code oz (.test .imm (.reg .eax) oz)
  | 0xaa => pure (.str .stos 8)
  | 0xab => pure (.str .stos oz)
  | 0xac => pure (.str .lods 8)
  | 0xad => pure (.str .lods oz)
  | 0xae => pure (.str .scas 8)
  | 0xaf => pure (.str .scas oz)
  | 0xc0 => do
    readModrm code cpu
    readImm8 code
    grp2 .imm .modrmVal 8
  | 0xc1 => do
    readModrm code cpu
    readImm8 code
    grp2 .imm .modrmVal oz
  | 0xc2 => withImm code 16 (.retNear .imm)
  | 0xc3 => pure (.retNear (.const 0))
  | 0xc6 => withModrmImm8 code cpu (.mov .imm .modrmVal 8)
  | 0xc7 => withModrmImm code cpu oz (.mov .imm .modrmVal oz)
  | 0xc9 => pure .leave
  | 0xcd => withImm8 code (.int .imm)
  | 0xd0 => do
    readModrm code cpu
    grp2 (.const 1) .modrmVal 8
  | 0xd1 => do
    readModrm code cpu
    grp2 (.const 1) .modrmVal oz
  | 0xd2 => do
    readModrm code cpu
    grp2 (Place.reg .ecx) .modrmVal 8
  | 0xd3 => do
    readModrm code cpu
    grp2 (Place.reg .ecx) .modrmVal oz
  | 0xe3 => withImm8 code (.jcxzRel .imm)
  | 0xe8 => withImm code oz (.callRel .imm)
  | 0xe9 => withImm code oz (.jmpRel .imm)
  | 0xeb => withImm8 code (.jmpRel .imm)
  | 0xf2 => repnz code cpu oz
  | 0xf3 => repz code cpu oz
  | 0xf6 => do
    readModrm code cpu
    grp3 (readImm8 code) .modrmVal 8
  | 0xf7 => do
    readModrm code cpu
    grp3 (readImm code oz) .modrmVal oz
  | 0xfc => pure (.setDf false)
  | 0xfd => pure (.setDf true)
  | 0xfe => do
    readModrm code cpu
    grp5 .modrmVal 8
  | 0xff => do
    readModrm code cpu
    grp5 .modrmVal oz
  | _ =>
    if n < 0x40 ∧ n % 8 < 6 then makeOp code cpu oz (arithOp (n / 8)) (n % 8)
    else if n / 8 = 0x40 / 8 then pure (.inc (.reg (regOf n)) oz)
    else if n / 8 = 0x48 / 8 then pure (.dec (.reg (regOf n)) oz)
    else if n / 8 = 0x50 / 8 then pure (.push (Place.reg (regOf n)) oz)
    else if n / 8 = 0x58 / 8 then pure (.pop (.reg (regOf n)) oz)
    else if n / 16 = 7 then withImm8 code (.jRel (condOf (n % 16)) (negatedOf n) .imm)
    else if n / 8 = 0x90 / 8 then pure (.xchg (.reg (regOf n)) (.reg .eax) oz)
    else if n / 8 = 0xb0 / 8 then
      -- `reg_ah` to `reg_bh` are other names of the registers four to seven
      withImm8 code (.mov .imm (.reg (regOf n)) 8)
    else if n / 8 = 0xb8 / 8 then withImm code oz (.mov .imm (.reg (regOf n)) oz)
    else if n / 8 = 0xd8 / 8 then fpu code cpu n
    else pure .undefined

/-! Prefixes. -/

/-- `cpu_step` at its label `restart`, or at `lockrestart` after `0xf0`. Each instance
of the decoder has locals of its own. -/
structure Front where
  oz : ℕ
  savedIp : Dword
  ip : Dword
  addr : Dword
  lock : Bool
deriving DecidableEq

/-- A fresh call of the decoder for `oz`. -/
def Front.enter (oz : ℕ) (ip : Dword) : Front := ⟨oz, ip, ip, 0, false⟩

/-- One byte, which is a prefix or the opcode. -/
def restart (f : Front) : Front ⊕ (Front × Option Byte) :=
  match fetch code f.ip 8 with
  | .error _ => .inr (f, none)
  | .ok (insn, ip) =>
    if insn = 0x65 then .inl { f with ip := ip, addr := f.addr + cpu.tlsPtr }
    else if f.lock then .inr ({ f with ip := ip }, some insn)
    else if insn = 0x2e ∨ insn = 0x67 then .inl { f with ip := ip }
    else if insn = 0x66 then .inl (.enter (if f.oz = 32 then 16 else 32) ip)
    else if insn = 0xf0 then .inl { f with ip := ip, lock := true }
    else .inr ({ f with ip := ip }, some insn)

/-- The fields of the local `modrm` that no byte sets. -/
def Cursor.start (f : Front) : Cursor := ⟨f.ip, f.addr, ⟨.eax, .modrmReg, none, 0, .eax, 0⟩, 0⟩

/-- The instruction at `f`, and where it ends. -/
def Front.decode (f : Front) : Option Byte → Except Stop (Insn × Cursor)
  | none => .error .fetch
  | some insn =>
    if f.lock then locked code cpu f.oz insn (.start f) else oneByte code cpu f.oz insn (.start f)

end Decode

/-! The step. -/

def intDiv : ℕ := 0
def intUndefined : ℕ := 6
def intGpf : ℕ := 13

/-- What is returned, and `cpu` at the return. -/
def finish (savedIp : Dword) (cpu : CpuState) : Stop → ℕ × CpuState
  | .gpf addr => (intGpf, { cpu with eip := savedIp, segfaultAddr := addr })
  -- the address is given as `cpu->eip`, which has just been put back
  | .fetch => (intGpf, { cpu with eip := savedIp, segfaultAddr := savedIp })
  | .undefined => (intUndefined, { cpu with eip := savedIp })
  | .div => (intDiv, cpu)
  | .int code => (code.toNat, cpu)

def Machine.finish (savedIp : Dword) (m : Machine) (i : Stop) : Outcome ℕ Wrong Machine Unit :=
  .stop (Emu.finish savedIp m.cpu i).1 { m with cpu := (Emu.finish savedIp m.cpu i).2 }

def returned (savedIp : Dword) : Outcome Stop Wrong Machine Unit → Outcome ℕ Wrong Machine Unit
  | .ok a m => .ok a m
  | .stop i m => m.finish savedIp i
  | .wrong e => .wrong e

def Machine.withEip (ip : Dword) (m : Machine) : Machine :=
  m.mapCpu fun cpu ↦ { cpu with eip := ip }

variable (h : Host)

/-- The instruction once its prefixes are read. -/
def Front.step (f : Front) (code : GuestMem) (insn : Option Byte) : Exec ℕ Wrong Machine Unit :=
  fun m ↦
    match f.decode code m.cpu insn with
    | .error i => m.finish f.savedIp i
    | .ok (insn, c) =>
      returned f.savedIp (exec h ⟨f.oz, c.addr, c.modrm, c.imm⟩ insn (m.withEip c.ip))

/-- `cpu_step32` on an instruction in the memory `code`. A loop over prefixes ends
before it has read every address, or never. -/
def cpuStepOn (code : GuestMem) : Exec ℕ Wrong Machine Unit := fun m ↦
  match Loop.run (restart code m.cpu) (2 ^ 32) (.enter 32 m.cpu.eip) with
  | none => .wrong .noReturn
  | some (f, insn) => f.step h code insn m

/-- `cpu_step32` -/
def cpuStep32 : Exec ℕ Wrong Machine Unit := fun m ↦ cpuStepOn h m.mem m

/-! A machine to run on, with zeros everywhere and all of its memory writable. -/

def CpuState.zero : CpuState where
  regs _ := 0
  xmm _ := 0
  eip := 0
  eflags := 0
  cf := 0
  of := 0
  res := 0
  op1 := 0
  op2 := 0
  pfRes := false
  zfRes := false
  sfRes := false
  afOps := false
  fp _ := ⟨0, 0⟩
  fsw := 0
  fcw := 0
  gs := 0
  tlsPtr := 0
  segfaultAddr := 0
  trapno := 0

def Machine.zero : Machine := ⟨.zero, ⟨fun _ ↦ .readWrite, fun _ ↦ 0⟩, .roundToNearest⟩

def Locals.zero : Locals := ⟨32, 0, ⟨.eax, .modrmReg, none, 0, .eax, 0⟩, 0⟩

def Host.zero : Host := ⟨fun _ ↦ 0, fun _ ↦ 0, fun _ ↦ 0, fun _ _ ↦ 0, 0⟩

end Isl.Emu
