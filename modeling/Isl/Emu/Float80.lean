import Isl.Emu.CpuState
import Isl.Emu.Uint128

/-!
The 80-bit floating point numbers of `emu/float80.c`. Doubles are their bits, and
a failing assertion, or an access through a null pointer, has no result.
-/

namespace Isl.Emu

inductive RoundingMode
  | roundToNearest
  | roundDown
  | roundUp
  | roundChop
deriving DecidableEq

def expMin : ℤ := 1
def expSpecial : BitVec 15 := 0x7fff
def expDenormal : BitVec 15 := 0

def bias (exp : ℤ) : ℤ := exp + 0x3fff

def unbias (exp : BitVec 15) : ℤ := exp.toNat - 0x3fff

/-- Right for denormal numbers. -/
def unbiasDenormal (exp : BitVec 15) : ℤ := if exp = expDenormal then 1 - 0x3fff else unbias exp

def cursedBit : Qword := 1#64 <<< 63

namespace Float80

def exp (f : Float80) : BitVec 15 := f.signExp.setWidth 15

def sign (f : Float80) : Bool := f.signExp.msb

def of (signif : Qword) (exp : BitVec 15) (sign : Bool) : Float80 :=
  ⟨signif, BitVec.ofBool sign ++ exp⟩

end Float80

def f80Nan : Float80 := .of 0xc000000000000000 0x7fff false
def f80Inf : Float80 := .of 0x8000000000000000 0x7fff false
def f80Zero : Float80 := .of 0 0 false

/-- `u128_shift_right_round` -/
def u128ShiftRightRound (mode : RoundingMode) (i : Uint128) (shift : ℕ) (sign : Bool) : Uint128 :=
  if shift = 0 then i
  else if shift > 127 then 0
  else
    let guard := (i >>> (shift - 1)).getLsbD 0
    let rest := uint128ToUint64 (i &&& ~~~(uint128FromUint64 (-1) <<< (shift - 1)))
    let i := i >>> shift
    match mode with
    | .roundUp => if !sign then i + 1 else i
    | .roundDown => if sign then i + 1 else i
    | .roundToNearest =>
      if guard then
        if rest ≠ 0 then i + 1
        else if i.getLsbD 0 then i + 1
        else i
      else i
    | .roundChop => i

def f80ShiftLeft (f : Float80) (shift : ℕ) : Float80 :=
  .of (f.signif <<< shift) (f.exp - BitVec.ofNat 15 shift) f.sign

def f80ShiftRight (mode : RoundingMode) (f : Float80) (shift : ℕ) : Float80 :=
  let signif :=
    if shift > 63 then 0
    else uint128ToUint64 (u128ShiftRightRound mode (uint128FromUint64 f.signif) shift f.sign)
  .of signif (f.exp + BitVec.ofNat 15 shift) f.sign

def f80IsSupported (f : Float80) : Bool :=
  if f.exp = expDenormal then f.signif >>> 63 == 0 else f.signif >>> 63 == 1

def f80Isnan (f : Float80) : Bool :=
  f.exp == expSpecial && (f.signif &&& ((-1 : Qword) >>> 1)) != 0

def f80Isinf (f : Float80) : Bool :=
  f.exp == expSpecial && (f.signif &&& ((-1 : Qword) >>> 1)) == 0

def f80Iszero (f : Float80) : Bool := f.exp == expDenormal && f.signif == 0

def f80Isdenormal (f : Float80) : Bool := f.exp == expDenormal && f.signif != 0

def f80Normalize (f : Float80) : Option Float80 :=
  if (f.exp = expDenormal ∨ f.exp = expSpecial) ∧ !f80IsSupported f then none
  -- denormals (and zero) are already normalized
  else if f.exp = expDenormal then some f
  else
    let shift := if f.signif = 0 then 64 else builtinClz f.signif
    if (f.exp.toNat : ℤ) - shift < expMin then
      let f := f80ShiftLeft f (f.exp.toNat - 1)
      some (.of f.signif expDenormal f.sign)
    else some (f80ShiftLeft f shift)

def u128NormalizeRound (mode : RoundingMode) (signif : Uint128) (exp : ℤ) (sign : Bool) : Float80 :=
  let shift := uint128CountLeadingZeros (signif >>> 64)
  let shift := if signif >>> 64 = 0 then 64 + builtinClz (uint128ToUint64 signif) else shift
  let shift := if signif = 0 then 128 else shift
  let (signif, exp) :=
    if exp - shift < 1 - 0x3fff then
      (if exp > 1 - 0x3fff then signif <<< (exp - (1 - 0x3fff)).toNat else signif, unbias expDenormal)
    else (signif <<< shift, exp - shift)
  let fExp := BitVec.ofInt 15 (bias exp)
  let signif := u128ShiftRightRound mode signif 64 sign
  if signif >>> 64 ≠ 0 then .of (uint128ToUint64 (signif >>> 1)) (fExp + 1) sign
  else .of (uint128ToUint64 signif) fExp sign

def f80FromInt (i : BitVec 64) : Option Float80 :=
  let exp := if i = 0 then 0 else BitVec.ofInt 15 (bias 63)
  if i.msb then f80Normalize (.of (-i) exp true) else f80Normalize (.of i exp false)

def int64Max : BitVec 64 := 0x7fffffffffffffff
def int64Min : BitVec 64 := 0x8000000000000000

def f80ToInt (mode : RoundingMode) (f : Float80) : BitVec 64 :=
  if !f80IsSupported f then int64Min
  else if bias 63 < f.exp.toNat then if !f.sign then int64Max else int64Min
  else
    let f := f80ShiftRight mode f (bias 63 - f.exp.toNat).toNat
    if !f.sign then f.signif else -f.signif

/-! Doubles. -/

abbrev Double := BitVec 64

namespace DoubleBits

def signif (d : Double) : BitVec 52 := d.setWidth 52

def exp (d : Double) : BitVec 11 := d.extractLsb' 52 11

def sign (d : Double) : Bool := d.msb

def of (signif : BitVec 52) (exp : BitVec 11) (sign : Bool) : Double :=
  BitVec.ofBool sign ++ exp ++ signif

end DoubleBits

def exp64Max : ℤ := 0x7fe
def exp64Special : BitVec 11 := 0x7ff
def exp64Denormal : BitVec 11 := 0

def doubleNan : Double := 0x7ff8000000000000
def doubleInfinity (sign : Bool) : Double := DoubleBits.of 0 exp64Special sign

def f80FromDouble (d : Double) : Option Float80 :=
  let db := (DoubleBits.signif d, DoubleBits.exp d, DoubleBits.sign d)
  let exp :=
    if db.2.1 = exp64Special then expSpecial
    else if db.2.1 = exp64Denormal then
      if db.1 = 0 then 0 else BitVec.ofInt 15 (bias (1 - 0x3ff))
    else BitVec.ofInt 15 (bias (db.2.1.toNat - 0x3ff))
  let signif := db.1.setWidth 64 <<< 11
  let signif := if db.2.1 ≠ exp64Denormal then signif ||| cursedBit else signif
  f80Normalize (.of signif exp db.2.2)

def f80ToDouble (mode : RoundingMode) (f : Float80) : Double :=
  if !f80IsSupported f then doubleNan
  else
    let newExp : ℤ := unbias f.exp + 0x3ff
    let newExp : ℤ := if f.exp = expSpecial then exp64Special.toNat else newExp
    if f.exp ≠ expSpecial ∧ newExp > exp64Max then doubleInfinity f.sign
    else
      let (f, newExp) :=
        if newExp ≤ 0 then
          let f := f80ShiftRight mode (.of (f.signif >>> 1) f.exp f.sign) (-newExp).toNat
          (f, unbias f.exp + 0x3ff)
        else (f, newExp)
      let exp := BitVec.ofInt 11 newExp
      let signif := uint128ToUint64 (u128ShiftRightRound mode (uint128FromUint64 f.signif) 11 f.sign)
      if signif.getLsbD 53 then DoubleBits.of ((signif >>> 1).setWidth 52) (exp + 1) f.sign
      else DoubleBits.of (signif.setWidth 52) exp f.sign

/-! Arithmetic. -/

def f80Neg (f : Float80) : Float80 := .of f.signif f.exp (!f.sign)

def f80Abs (f : Float80) : Float80 := .of f.signif f.exp false

/-- The sum of the magnitude `a` and the signed `b`, after the swap and the flip. -/
def f80AddFlipped (mode : RoundingMode) (a b : Float80) (flipped : Bool) : Option Float80 :=
  let aSignif := uint128FromUint64 a.signif <<< 64
  let bSignif := uint128FromUint64 b.signif <<< 64
  let bSignif := u128ShiftRightRound mode bSignif (a.exp.toNat - b.exp.toNat) false
  let exp := unbias a.exp
  let finish (signif : Uint128) (exp : ℤ) (sign : Bool) : Option Float80 :=
    let f := u128NormalizeRound mode signif exp sign
    let f := if flipped then f80Neg f else f
    if f80IsSupported f then some f else none
  if !b.sign then
    -- b is positive, so add
    if f80Isinf a then finish aSignif exp false
    else
      let (signif, overflow) := uint128Add aSignif bSignif
      if overflow then
        finish (u128ShiftRightRound mode signif 1 false ||| 1#128 <<< 127) (exp + 1) false
      else finish signif exp false
  else
    -- b is negative, so subtract
    if f80Isinf a && f80Isinf b then some f80Nan
    else
      let (signif, sign) :=
        if bSignif ≤ aSignif then (aSignif - bSignif, false) else (bSignif - aSignif, true)
      if uint128ToUint64 signif = 0 then some f80Zero else finish signif exp sign

def f80Add (mode : RoundingMode) (a b : Float80) : Option Float80 :=
  if !f80IsSupported a || !f80IsSupported b then some f80Nan
  else
    -- a has larger exponent, b has smaller exponent
    let (a, b) := if a.exp < b.exp then (b, a) else (a, b)
    if f80Isnan a then some a
    else if a.sign then f80AddFlipped mode (f80Neg a) (f80Neg b) true
    else f80AddFlipped mode a b false

def f80Sub (mode : RoundingMode) (a b : Float80) : Option Float80 := f80Add mode a (f80Neg b)

def f80Mul (mode : RoundingMode) (a b : Float80) : Float80 :=
  let sign := a.sign ^^ b.sign
  if !f80IsSupported a || !f80IsSupported b then f80Nan
  else if f80Isnan a then f80Nan
  else if f80Isnan b then f80Nan
  else if f80Isinf a || f80Isinf b then
    -- infinity times zero is undefined
    if f80Iszero a || f80Iszero b then f80Nan
    else .of f80Inf.signif f80Inf.exp sign
  else
    let exp := unbiasDenormal a.exp + unbiasDenormal b.exp + 1
    let signif := uint128FromUint64 a.signif * uint128FromUint64 b.signif
    let f := u128NormalizeRound mode signif exp sign
    .of f.signif f.exp sign

/-- `__builtin_ctzl` -/
def builtinCtz {w : ℕ} (x : BitVec w) : ℕ := ((List.range w).find? x.getLsbD).getD w

def f80Div (mode : RoundingMode) (a b : Float80) : Option Float80 :=
  let sign := a.sign ^^ b.sign
  if !f80IsSupported a || !f80IsSupported b then some f80Nan
  else if f80Isnan a then some f80Nan
  else if f80Isnan b then some f80Nan
  else if f80Isinf a then
    -- infinity / infinity is nan
    if f80Isinf b then some f80Nan
    else some (.of f80Inf.signif f80Inf.exp sign)
  else if f80Isinf b then some (.of 0 0 sign)
  else if f80Iszero b then
    -- 0 / 0 is nan
    if f80Iszero a then some (.of f80Nan.signif f80Nan.exp sign)
    else some (.of f80Inf.signif f80Inf.exp sign)
  else do
    let bTrailing := builtinCtz b.signif
    let (signif, _) ← uint128Div none (uint128FromUint64 a.signif <<< 64)
      (uint128FromUint64 b.signif >>> bTrailing)
    let exp := unbiasDenormal a.exp - unbiasDenormal b.exp + 63 - bTrailing
    let f := u128NormalizeRound mode signif exp sign
    some (.of f.signif f.exp sign)

def f80Mod (mode : RoundingMode) (x y : Float80) : Option Float80 := do
  let quotient ← f80Div mode x y
  let quotient ← f80FromInt (f80ToInt .roundChop quotient)
  f80Sub mode x (f80Mul mode quotient y)

def f80Uncomparable (a b : Float80) : Bool :=
  !f80IsSupported a || !f80IsSupported b || f80Isnan a || f80Isnan b

def f80Lt (mode : RoundingMode) (a b : Float80) : Option Bool :=
  if f80Uncomparable a b then some false
  -- same signed infinities are equal, not less
  else if f80Isinf a && f80Isinf b && a.sign == b.sign then some false
  else if f80Iszero a && f80Iszero b && a.sign != b.sign then some true
  else (f80Sub mode a b).map (·.sign)

def f80Eq (a b : Float80) : Bool :=
  if f80Uncomparable a b then false
  else
    let a := if f80Iszero a then .of a.signif a.exp false else a
    let b := if f80Iszero a then .of b.signif b.exp false else b
    a.sign == b.sign && a.exp == b.exp && a.signif == b.signif

end Isl.Emu
