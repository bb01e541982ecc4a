import Isl.Emu.FpuStack

/-!
The x87 unit a second time, as the functions of `emu/fpu.c`, and how far each macro of
the interpreter has the effect of its counterpart there.
-/

namespace Isl.Emu

open Isl.Lib Interp

/-! The functions. What a pointer leads to is their argument, or their result. -/

/-- `fpu_push` -/
def fpuPush (f : Float80) : Op Unit := do
  topDown
  setSt 0 f

def fpuXch (i : ℕ) : Op Unit := do
  let tmp ← st 0
  setSt 0 (← st i)
  setSt i tmp

def fpuLd (i : ℕ) : Op Unit := do
  fpuPush (← st i)

def fpuLdc (c : FpuConst) : Op Unit := fpuPush (fpuConsts c)

/-- `fpu_ild16`, `fpu_ild32` and `fpu_ild64` -/
def fpuIld {z : ℕ} (i : BitVec z) : Op Unit := do
  fpuPush (← f80 fun _ ↦ f80FromInt (i.signExtend 64))

/-- `fpu_ldm32`, `fpu_ldm64` and `fpu_ldm80` -/
def fpuLdm (h : Host) (z : Real) (f : BitVec z.width) : Op Unit := do
  fpuPush (← f80 fun _ ↦ f80FromReal h z f)

def fpuSt (i : ℕ) : Op Unit := do
  setSt i (← st 0)

/-- `fpu_ist16`, `fpu_ist32` and `fpu_ist64` -/
def fpuIst (z : ℕ) : Op (BitVec z) := do
  let f ← st 0
  pure ((f80ToInt (← roundingMode) f).setWidth z)

/-- `fpu_stm32`, `fpu_stm64` and `fpu_stm80` -/
def fpuStm (h : Host) (z : Real) : Op (BitVec z.width) := do
  let f ← st 0
  pure (f80ToReal h (← roundingMode) f z)

def fpuPrem : Op Unit := do
  let a ← st 0
  let b ← st 1
  setSt 0 (← f80 fun mode ↦ f80Mod mode a b)
  modifyCpu fun cpu ↦ cpu.setC c2 false

def fpuComparei (x : Float80) : Op Unit := do
  modifyCpu fun cpu ↦
    { (cpu.setFlag .pf false).setFlag .zf false with pfRes := false, zfRes := false, cf := 0 }
  let a ← st 0
  setCf (byteOf (← lt a x))
  let a ← st 0
  modifyCpu fun cpu ↦ cpu.setFlag .zf (f80Eq a x)
  let a ← st 0
  if f80Uncomparable a x then
    modifyCpu fun cpu ↦ { (cpu.setFlag .pf true).setFlag .zf true with cf := 1 }

def fpuCompare (x : Float80) : Op Unit := do
  modifyCpu fun cpu ↦ (cpu.setC c1 false).setC c2 false
  let a ← st 0
  let less ← lt a x
  modifyCpu fun cpu ↦ cpu.setC c0 less
  let a ← st 0
  modifyCpu fun cpu ↦ cpu.setC c3 (f80Eq a x)
  let a ← st 0
  if f80Uncomparable a x then
    modifyCpu fun cpu ↦ ((cpu.setC c3 true).setC c2 true).setC c0 true

def fpuCom (i : ℕ) : Op Unit := do
  fpuCompare (← st i)

def fpuComi (i : ℕ) : Op Unit := do
  fpuComparei (← st i)

/-- `fpu_comm32` and `fpu_comm64` -/
def fpuComm (h : Host) (z : Real) (f : BitVec z.width) : Op Unit := do
  fpuCompare (← f80 fun _ ↦ f80FromReal h z f)

def fpuAbs : Op Unit := do
  setSt 0 (f80Abs (← st 0))

def fpuChs : Op Unit := do
  setSt 0 (f80Neg (← st 0))

/-- A function of `float80.h` on the destination and the source, in this order. -/
abbrev Binary := RoundingMode → Float80 → Float80 → Option Float80

def Binary.swap (f : Binary) : Binary := fun mode dst src ↦ f mode src dst

def Binary.mul : Binary := fun mode dst src ↦ some (f80Mul mode dst src)

/-- `ST(dsti) = f(ST(dsti), ST(srci))` -/
def fpuBinary (f : Binary) (srci dsti : ℕ) : Op Unit := do
  let d ← st dsti
  let s ← st srci
  setSt dsti (← f80 fun mode ↦ f mode d s)

def fpuAdd : ℕ → ℕ → Op Unit := fpuBinary f80Add
def fpuSub : ℕ → ℕ → Op Unit := fpuBinary f80Sub
def fpuSubr : ℕ → ℕ → Op Unit := fpuBinary (Binary.swap f80Sub)
def fpuMul : ℕ → ℕ → Op Unit := fpuBinary Binary.mul
def fpuDiv : ℕ → ℕ → Op Unit := fpuBinary f80Div
def fpuDivr : ℕ → ℕ → Op Unit := fpuBinary (Binary.swap f80Div)

/-- `ST(0) = f(ST(0), x)` -/
def fpuWith (f : Binary) (x : Option Float80) : Op Unit := do
  let s ← f80 fun _ ↦ x
  let d ← st 0
  setSt 0 (← f80 fun mode ↦ f mode d s)

/-! For 16 and 32 bits. -/

section

variable {z : ℕ} (i : BitVec z)

def fpuIadd : Op Unit := fpuWith f80Add (f80FromInt (i.signExtend 64))
def fpuIsub : Op Unit := fpuWith f80Sub (f80FromInt (i.signExtend 64))
def fpuIsubr : Op Unit := fpuWith (Binary.swap f80Sub) (f80FromInt (i.signExtend 64))
def fpuImul : Op Unit := fpuWith Binary.mul (f80FromInt (i.signExtend 64))
def fpuIdiv : Op Unit := fpuWith f80Div (f80FromInt (i.signExtend 64))
def fpuIdivr : Op Unit := fpuWith (Binary.swap f80Div) (f80FromInt (i.signExtend 64))

end

/-! For `float` and `double`. -/

section

variable (h : Host) (z : Real) (f : BitVec z.width)

def fpuAddm : Op Unit := fpuWith f80Add (f80FromReal h z f)
def fpuSubm : Op Unit := fpuWith f80Sub (f80FromReal h z f)
def fpuSubrm : Op Unit := fpuWith (Binary.swap f80Sub) (f80FromReal h z f)
def fpuMulm : Op Unit := fpuWith Binary.mul (f80FromReal h z f)
def fpuDivm : Op Unit := fpuWith f80Div (f80FromReal h z f)
def fpuDivrm : Op Unit := fpuWith (Binary.swap f80Div) (f80FromReal h z f)

end

def fpuStcw : Op Word := do
  pure (← Exec.get).cpu.fcw

/-- A value of the enumeration `f80_rounding_mode`. -/
def RoundingMode.ofBits (n : BitVec 2) : RoundingMode :=
  if n = 0 then .roundToNearest else if n = 1 then .roundDown else if n = 2 then .roundUp
  else .roundChop

/-- The field `rc` of a control word. -/
def rc (fcw : Word) : BitVec 2 := fcw.extractLsb' 10 2

def fpuLdcw (i : Word) : Op Unit := do
  modifyCpu fun cpu ↦ { cpu with fcw := i }
  Exec.modify fun m ↦ { m with rounding := .ofBits (rc m.cpu.fcw) }

def fpuPatan (h : Host) : Op Unit := do
  let a ← st 1
  let b ← st 0
  let mode ← roundingMode
  setSt 1 (← f80 fun _ ↦ f80FromDouble (h.atan2 (f80ToDouble mode a) (f80ToDouble mode b)))
  fpop

/-! The macros and their counterparts. -/

section

variable (h : Host) (l : Locals)

/-- A call with a pointer to the operand in memory, which the function reads. -/
def reading {z : ℕ} (f : BitVec z → Op Unit) : Op Unit := do
  f (← get l (.place .memAddr) z)

/-- A call with a pointer to the operand in memory, which the function writes. -/
def writing {z : ℕ} (x : Op (BitVec z)) : Op Unit := do
  set l .memAddr (← x)

namespace FpuArith

def call (src dst : ℕ) : FpuArith → Op Unit
  | .add => fpuAdd src dst
  | .sub => fpuSub src dst
  | .subr => fpuSubr src dst
  | .mul => fpuMul src dst
  | .div => fpuDiv src dst
  | .divr => fpuDivr src dst

def callInt {z : ℕ} (i : BitVec z) : FpuArith → Op Unit
  | .add => fpuIadd i
  | .sub => fpuIsub i
  | .subr => fpuIsubr i
  | .mul => fpuImul i
  | .div => fpuIdiv i
  | .divr => fpuIdivr i

def callReal (z : Real) (f : BitVec z.width) : FpuArith → Op Unit
  | .add => fpuAddm h z f
  | .sub => fpuSubm h z f
  | .subr => fpuSubrm h z f
  | .mul => fpuMulm h z f
  | .div => fpuDivm h z f
  | .divr => fpuDivrm h z f

end FpuArith

/-- The counterpart of a macro. `FSTSW` has none. -/
def FpuOp.call : FpuOp → Option (Op Unit)
  | .arith op src dst => some (op.call (src.index l) (dst.index l))
  | .iarith op z => some (reading l fun i : BitVec z ↦ op.callInt i)
  | .arithm op z => some (reading l fun f ↦ op.callReal h z f)
  | .chs => some fpuChs
  | .abs => some fpuAbs
  | .prem => some fpuPrem
  | .ucomi => some (fpuComi (stI l))
  | .com => some (fpuCom (stI l))
  | .comm z => some (reading l (fpuComm h z))
  | .ild z => some (reading l fun i : BitVec z ↦ fpuIld i)
  | .ld => some (fpuLd (stI l))
  | .ldm z => some (reading l (fpuLdm h z))
  | .ldc what => some (fpuLdc what)
  | .stm z => some (writing l (fpuStm h z))
  | .ist z => some (writing l (fpuIst z))
  | .st => some (fpuSt (stI l))
  | .xch => some (fpuXch (stI l))
  | .stsw => none
  | .stcw => some (writing l fpuStcw)
  | .ldcw => some (reading l fpuLdcw)
  | .patan => some (fpuPatan h)

end

/-! What the two are compared by. -/

/-- The same stack, the same `c0` to `c3`, the same flags, memory and rounding mode. -/
structure SameX87 (m m' : Machine) : Prop where
  fp : m.cpu.fp = m'.cpu.fp
  top : m.cpu.top = m'.cpu.top
  c : ∀ i ∈ [c0, c1, c2, c3], m.cpu.fsw.getLsbD i = m'.cpu.fsw.getLsbD i
  zf : m.cpu.ZF = m'.cpu.ZF
  pf : m.cpu.PF = m'.cpu.PF
  cf : m.cpu.CF = m'.cpu.CF
  mem : m.mem = m'.mem
  rounding : m.rounding = m'.rounding

/-- The value of `ST(i)`. -/
def CpuState.entry (cpu : CpuState) (i : ℕ) : Float80 := cpu.fp (slot cpu.top i)

/-- When a macro has the effect of its counterpart. -/
def FpuOp.AgreesOn (h : Host) (l : Locals) (m : Machine) : FpuOp → Prop
  | .com => ¬f80Uncomparable (m.cpu.entry 0) (m.cpu.entry (stI l))
  | .comm z => ∀ v x, m.mem.tlbRead l.addr z.width = some v → f80FromReal h z v = some x →
    ¬f80Uncomparable (m.cpu.entry 0) x
  | .ucomi =>
    let a := m.cpu.entry 0
    let b := m.cpu.entry (stI l)
    ¬f80Uncomparable a b ∧
      (f80Lt m.rounding a b = none ∨ (m.cpu.zfRes → (m.cpu.res == 0) = f80Eq a b))
  | .prem => f80Mod m.rounding (m.cpu.entry 0) (m.cpu.entry 1) = none ∨
    m.cpu.fsw.getLsbD c2 = false
  | .ldcw => ∀ v, m.mem.tlbRead l.addr 16 = some v → m.rounding = .ofBits (rc v)
  | _ => True

section

variable {m : Machine} {i : ℕ}

theorem st_entry (hi : m.cpu.top.toNat + i < 8) : st i m = .ok (m.cpu.entry i) m := st_of_lt hi

theorem st_zero (m : Machine) : st 0 m = .ok (m.cpu.entry 0) m := st_entry m.cpu.top.isLt

theorem f80_apply (x : RoundingMode → Option Float80) (m : Machine) : f80 x m =
    match x m.rounding with
    | some f => .ok f m
    | none => .wrong .noResult := by
  have hf : f80 x m = Exec.ofOption .noResult (x m.rounding) m := rfl
  rw [hf]
  cases x m.rounding <;> rfl

theorem lt_apply (a b : Float80) (m : Machine) : lt a b m =
    match f80Lt m.rounding a b with
    | some less => .ok less m
    | none => .wrong .noResult := by
  have hl : lt a b m = Exec.ofOption .noResult (f80Lt m.rounding a b) m := rfl
  rw [hl]
  cases f80Lt m.rounding a b <;> rfl

theorem f80_state {x : RoundingMode → Option Float80} {f : Float80} {m m' : Machine}
    (hf : f80 x m = .ok f m') : m' = m := by
  rw [f80_apply] at hf
  split at hf
  · cases hf
    rfl
  · cases hf

/-- `ST(0)` can be read before or after something else that changes nothing. -/
theorem st_zero_comm {α β : Type} {y : Op α} (hy : ∀ v m', y m = .ok v m' → m' = m)
    (k : Float80 → α → Op β) :
    (st 0 >>= fun d ↦ y >>= fun s ↦ k d s) m = (y >>= fun s ↦ st 0 >>= fun d ↦ k d s) m := by
  rw [Exec.bind_ok (st_zero m), Exec.bind_apply, Exec.bind_apply]
  cases hr : y m with
  | ok v m' =>
    obtain rfl := hy v m' hr
    exact ((Exec.bind_ok (st_zero m') fun d ↦ k d v).symm :)
  | _ => rfl

theorem SameX87.refl (m : Machine) : SameX87 m m := ⟨rfl, rfl, fun _ _ ↦ rfl, rfl, rfl, rfl, rfl, rfl⟩

abbrev SameEnd (o o' : Outcome Stop Wrong Machine Unit) : Prop := o.Agree (· = ·) SameX87 o'

theorem SameEnd.of_eq {o o' : Outcome Stop Wrong Machine Unit} (ho : o = o') : SameEnd o o' := by
  subst ho
  cases o with
  | wrong e => rfl
  | _ => exact ⟨rfl, .refl _⟩

variable {h : Host} {l : Locals}

theorem farith_call (op : FpuArith) (src dst : ℕ) : farith op src dst = op.call src dst := by
  cases op <;> rfl

/-- The operand in memory as a number. -/
def operand (l : Locals) {z : ℕ} (x : BitVec z → Option Float80) : Op Float80 := do
  let v ← get l (.place .memAddr) z
  f80 fun _ ↦ x v

theorem operand_state {z : ℕ} {x : BitVec z → Option Float80} {f : Float80} {m' : Machine}
    (hf : operand l x m = .ok f m') : m' = m := by
  obtain ⟨v, u, hg, hf⟩ := Exec.bind_eq_ok.mp hf
  exact (f80_state hf).trans (get_state hg)

theorem binary_call {z : ℕ} (f : Binary) (x : BitVec z → Option Float80) :
    (st 0 >>= fun d ↦ operand l x >>= fun s ↦ f80 (fun mode ↦ f mode d s) >>= setSt 0) m =
      reading l (fun v ↦ fpuWith f (x v)) m := by
  refine (st_zero_comm (fun _ _ hs ↦ operand_state hs) _).trans ?_
  rw [operand, Exec.bind_assoc]
  rfl

theorem fiarith_call (op : FpuArith) (z : ℕ) :
    fiarith l op z m = reading l (fun i : BitVec z ↦ op.callInt i) m := by
  have hassoc : fiarith l op z = st 0 >>= fun d ↦
      operand l (fun v : BitVec z ↦ f80FromInt (v.signExtend 64)) >>= fun s ↦
        f80 (fun mode ↦ op.eval mode d s) >>= setSt 0 := by
    simp only [fiarith, operand, Exec.bind_assoc]
  rw [hassoc]
  cases op <;> exact binary_call _ _

theorem farithm_call (op : FpuArith) (z : Real) :
    farithm h l op z m = reading l (fun f ↦ op.callReal h z f) m := by
  have hop : farithm h l op z = st 0 >>= fun d ↦ operand l (f80FromReal h z) >>= fun s ↦
      f80 (fun mode ↦ op.eval mode d s) >>= setSt 0 := rfl
  rw [hop]
  cases op <;> exact binary_call _ _

theorem entry_congr {cpu cpu' : CpuState} (hfp : cpu'.fp = cpu.fp) (htop : cpu'.top = cpu.top)
    (i : ℕ) : cpu'.entry i = cpu.entry i := by
  rw [CpuState.entry, CpuState.entry, hfp, htop]

theorem st_of_same {cpu : CpuState} {i : ℕ} (hi : m.cpu.top.toNat + i < 8)
    (hfp : cpu.fp = m.cpu.fp) (htop : cpu.top = m.cpu.top) :
    st i { m with cpu := cpu } = .ok (m.cpu.entry i) { m with cpu := cpu } := by
  have hlt : cpu.top.toNat + i < 8 := htop ▸ hi
  have hst : st i { m with cpu := cpu } = .ok (cpu.entry i) { m with cpu := cpu } := st_entry hlt
  rw [hst, entry_congr hfp htop]

/-- What `F_COMPARE` does with an operand that the bits set meanwhile do not change. -/
theorem fCompare_apply {x : Op Float80} {b : Float80}
    (hx : ∀ fsw, (m.cpu.setFsw fsw).top = m.cpu.top →
      x { m with cpu := m.cpu.setFsw fsw } = .ok b { m with cpu := m.cpu.setFsw fsw }) :
    fCompare x m = match f80Lt m.rounding (m.cpu.entry 0) b with
    | some less => .ok () { m with cpu :=
        (((m.cpu.setC c0 less).setC c1 false).setC c2 false).setC c3 (f80Eq (m.cpu.entry 0) b) }
    | none => .wrong .noResult := by
  have hm : x m = .ok b m := hx m.cpu.fsw rfl
  rw [fCompare, Exec.bind_ok (st_zero m), Exec.bind_ok hm, Exec.bind_apply, lt_apply]
  cases f80Lt m.rounding (m.cpu.entry 0) b with
  | none => rfl
  | some less =>
    let cpu' := ((m.cpu.setC c0 less).setC c1 false).setC c2 false
    have htop : cpu'.top = m.cpu.top := by
      rw [CpuState.top_setC, CpuState.top_setC, CpuState.top_setC] <;> decide
    have hst : st 0 { m with cpu := cpu' } = .ok (m.cpu.entry 0) { m with cpu := cpu' } :=
      st_of_same m.cpu.top.isLt rfl htop
    refine Exec.bind_eq rfl (Exec.bind_eq rfl (Exec.bind_eq rfl ?_))
    exact Exec.bind_eq hst (Exec.bind_eq (hx cpu'.fsw htop) rfl)

theorem fpuCompare_apply (b : Float80) :
    fpuCompare b m = match f80Lt m.rounding (m.cpu.entry 0) b with
    | some less =>
      let cpu := (((m.cpu.setC c1 false).setC c2 false).setC c0 less).setC c3
        (f80Eq (m.cpu.entry 0) b)
      .ok () { m with cpu :=
        if f80Uncomparable (m.cpu.entry 0) b then ((cpu.setC c3 true).setC c2 true).setC c0 true
        else cpu }
    | none => .wrong .noResult := by
  have hst {cpu : CpuState} (hfp : cpu.fp = m.cpu.fp) (htop : cpu.top = m.cpu.top) :
      st 0 { m with cpu := cpu } = .ok (m.cpu.entry 0) { m with cpu := cpu } :=
    st_of_same m.cpu.top.isLt hfp htop
  let cpu₁ := (m.cpu.setC c1 false).setC c2 false
  have htop₁ : cpu₁.top = m.cpu.top := by
    rw [CpuState.top_setC, CpuState.top_setC] <;> decide
  have hlt := lt_apply (m.cpu.entry 0) b { m with cpu := cpu₁ }
  refine Exec.bind_eq rfl (Exec.bind_eq (hst rfl htop₁) ?_)
  rw [Exec.bind_apply, hlt]
  cases f80Lt m.rounding (m.cpu.entry 0) b with
  | none => rfl
  | some less =>
    let cpu₂ := cpu₁.setC c0 less
    have htop₂ : cpu₂.top = m.cpu.top := (CpuState.top_setC _ (by decide) _).trans htop₁
    let cpu₃ := cpu₂.setC c3 (f80Eq (m.cpu.entry 0) b)
    have htop₃ : cpu₃.top = m.cpu.top := (CpuState.top_setC _ (by decide) _).trans htop₂
    refine Exec.bind_eq rfl (Exec.bind_eq (hst rfl htop₂) (Exec.bind_eq rfl ?_))
    refine Exec.bind_eq (hst rfl htop₃) ?_
    split <;> rfl

/-- Results that differ in the status word at most. -/
theorem sameX87_fsw {cpu cpu' : CpuState} (hfsw : cpu' = cpu.setFsw cpu'.fsw)
    (htop : cpu'.top = cpu.top) :
    SameX87 { m with cpu := cpu } { m with cpu := cpu' } ↔
      ∀ i ∈ [c0, c1, c2, c3], cpu.fsw.getLsbD i = cpu'.fsw.getLsbD i := by
  refine ⟨SameX87.c, fun hc ↦ ⟨?_, htop.symm, hc, ?_, ?_, ?_, rfl, rfl⟩⟩
  all_goals
    rw [hfsw]
    rfl

theorem uncomparable_of_lt {mode : RoundingMode} {a b : Float80} {less : Bool}
    (hl : f80Lt mode a b = some less) (hu : f80Uncomparable a b) : less = false := by
  rw [f80Lt, if_pos hu] at hl
  exact (Option.some.inj hl).symm

/-- Two comparisons of the same numbers have the same effect unless they are unordered. -/
theorem compare_iff {x : Op Float80} {b : Float80}
    (hx : ∀ fsw, (m.cpu.setFsw fsw).top = m.cpu.top →
      x { m with cpu := m.cpu.setFsw fsw } = .ok b { m with cpu := m.cpu.setFsw fsw }) :
    SameEnd (fCompare x m) (fpuCompare b m) ↔ ¬f80Uncomparable (m.cpu.entry 0) b := by
  rw [fCompare_apply hx, fpuCompare_apply]
  cases hl : f80Lt m.rounding (m.cpu.entry 0) b with
  | none =>
    refine ⟨fun _ hu ↦ ?_, fun _ ↦ rfl⟩
    rw [f80Lt, if_pos hu] at hl
    cases hl
  | some less =>
    simp only
    split
    · have hl' := uncomparable_of_lt hl ‹_›
      refine ⟨fun hs ↦ ?_, fun hu ↦ absurd ‹_› hu⟩
      have hc := hs.2.c c0 (by simp)
      subst hl'
      simp (disch := decide) only [CpuState.getLsbD_setC] at hc
      simp [c0, c1, c2, c3] at hc
    · refine iff_of_true ⟨rfl, (sameX87_fsw rfl ?_).mpr ?_⟩ ‹_›
      · simp (disch := decide) only [CpuState.top_setC]
      · intro i hi
        simp (disch := decide) only [CpuState.getLsbD_setC]
        simp only [List.mem_cons, List.not_mem_nil, or_false] at hi
        obtain rfl | rfl | rfl | rfl := hi
        all_goals rfl

theorem fucomi_apply (hi : m.cpu.top.toNat + stI l < 8) :
    fucomi l m = match f80Lt m.rounding (m.cpu.entry 0) (m.cpu.entry (stI l)) with
    | some less =>
      let cpu := { m.cpu.setFlag .zf (f80Eq (m.cpu.entry 0) (m.cpu.entry (stI l))) with
        cf := byteOf less }
      .ok () { m with cpu := { cpu.setFlag .pf false with pfRes := false } }
    | none => .wrong .noResult := by
  let cpu' := m.cpu.setFlag .zf (f80Eq (m.cpu.entry 0) (m.cpu.entry (stI l)))
  have hst {i : ℕ} (hi : m.cpu.top.toNat + i < 8) :
      st i { m with cpu := cpu' } = .ok (m.cpu.entry i) { m with cpu := cpu' } :=
    st_of_same hi rfl rfl
  refine Exec.bind_eq (st_zero m) (Exec.bind_eq (st_entry hi) (Exec.bind_eq rfl ?_))
  refine Exec.bind_eq (hst m.cpu.top.isLt) (Exec.bind_eq (hst hi) ?_)
  rw [Exec.bind_apply, lt_apply]
  cases f80Lt m.rounding (m.cpu.entry 0) (m.cpu.entry (stI l)) <;> rfl

theorem fpuComparei_apply (b : Float80) :
    fpuComparei b m = match f80Lt m.rounding (m.cpu.entry 0) b with
    | some less =>
      let cpu := { (m.cpu.setFlag .pf false).setFlag .zf false with
        pfRes := false, zfRes := false, cf := byteOf less }
      let cpu := cpu.setFlag .zf (f80Eq (m.cpu.entry 0) b)
      .ok () { m with cpu :=
        if f80Uncomparable (m.cpu.entry 0) b then
          { (cpu.setFlag .pf true).setFlag .zf true with cf := 1 }
        else cpu }
    | none => .wrong .noResult := by
  let cpu₁ := { (m.cpu.setFlag .pf false).setFlag .zf false with
    pfRes := false, zfRes := false, cf := 0 }
  have hst {cpu : CpuState} (hfp : cpu.fp = m.cpu.fp) (htop : cpu.top = m.cpu.top) :
      st 0 { m with cpu := cpu } = .ok (m.cpu.entry 0) { m with cpu := cpu } :=
    st_of_same m.cpu.top.isLt hfp htop
  have hlt := lt_apply (m.cpu.entry 0) b { m with cpu := cpu₁ }
  have hst₁ : st 0 { m with cpu := cpu₁ } = .ok (m.cpu.entry 0) { m with cpu := cpu₁ } :=
    hst rfl rfl
  refine Exec.bind_eq rfl (Exec.bind_eq hst₁ ?_)
  rw [Exec.bind_apply, hlt]
  cases f80Lt m.rounding (m.cpu.entry 0) b with
  | none => rfl
  | some less =>
    let cpu₂ : CpuState := { cpu₁ with cf := byteOf less }
    let cpu₃ := cpu₂.setFlag .zf (f80Eq (m.cpu.entry 0) b)
    have hst₂ : st 0 { m with cpu := cpu₂ } = .ok (m.cpu.entry 0) { m with cpu := cpu₂ } :=
      hst rfl rfl
    have hst₃ : st 0 { m with cpu := cpu₃ } = .ok (m.cpu.entry 0) { m with cpu := cpu₃ } :=
      hst rfl rfl
    refine Exec.bind_eq rfl (Exec.bind_eq hst₂ (Exec.bind_eq rfl (Exec.bind_eq hst₃ ?_)))
    split <;> rfl

/-- The integer flags differ where the numbers are unordered, and where `ZF` is still to be
computed from another result. -/
theorem fucomi_iff (hi : m.cpu.top.toNat + stI l < 8) :
    SameEnd (fucomi l m) (fpuComi (stI l) m) ↔ FpuOp.AgreesOn h l m .ucomi := by
  have hcomi : fpuComi (stI l) m = fpuComparei (m.cpu.entry (stI l)) m :=
    Exec.bind_ok (st_entry hi) _
  rw [hcomi, fucomi_apply hi, fpuComparei_apply, FpuOp.AgreesOn]
  generalize m.cpu.entry (stI l) = b
  cases hl : f80Lt m.rounding (m.cpu.entry 0) b with
  | none =>
    refine iff_of_true rfl ⟨fun hu ↦ ?_, .inl rfl⟩
    rw [f80Lt, if_pos hu] at hl
    cases hl
  | some less =>
    simp only
    split
    · have hl' := uncomparable_of_lt hl ‹_›
      refine ⟨fun hs ↦ ?_, fun hu ↦ absurd ‹_› hu.1⟩
      have hcf : byteOf less = 1 := hs.2.cf
      subst hl'
      exact absurd hcf (by decide)
    · generalize f80Eq (m.cpu.entry 0) b = e
      let cpu₁ := (m.cpu.setFlag .zf e).setFlag .pf false
      let cpu₂ := ((m.cpu.setFlag .pf false).setFlag .zf false).setFlag .zf e
      have hz₁ : cpu₁.flag .zf = e := by
        rw [CpuState.flag_setFlag_ne _ (by decide), CpuState.flag_setFlag_self]
      have hz₂ : cpu₂.flag .zf = e := CpuState.flag_setFlag_self _ _ _
      have hp : cpu₁.flag .pf = cpu₂.flag .pf := by
        rw [CpuState.flag_setFlag_self, CpuState.flag_setFlag_ne _ (by decide),
          CpuState.flag_setFlag_ne _ (by decide), CpuState.flag_setFlag_self]
      have hzf : (if m.cpu.zfRes then m.cpu.res == 0 else cpu₁.flag .zf) = cpu₂.flag .zf ↔
          (m.cpu.zfRes → (m.cpu.res == 0) = e) := by
        rw [hz₁, hz₂]
        split <;> simp [*]
      constructor
      · intro hs
        exact ⟨‹_›, .inr (hzf.mp hs.2.zf)⟩
      · rintro ⟨-, hnone | hz⟩
        · cases hnone
        · exact ⟨rfl, rfl, rfl, fun _ _ ↦ rfl, hzf.mpr hz, hp, rfl, rfl, rfl⟩

theorem fprem_iff (h1 : m.cpu.top.toNat + 1 < 8) :
    SameEnd (fprem m) (fpuPrem m) ↔ FpuOp.AgreesOn h l m .prem := by
  rw [FpuOp.AgreesOn, fprem, fpuPrem, Exec.bind_ok (st_zero m), Exec.bind_ok (st_zero m),
    Exec.bind_ok (st_entry h1), Exec.bind_ok (st_entry h1), Exec.bind_apply, Exec.bind_apply,
    f80_apply]
  cases f80Mod m.rounding (m.cpu.entry 0) (m.cpu.entry 1) with
  | none => exact iff_of_true rfl (.inl rfl)
  | some r =>
    let cpu := { m.cpu with fp := Function.update m.cpu.fp (slot m.cpu.top 0) r }
    have hset : setSt 0 r m = .ok () { m with cpu := cpu } := setSt_of_lt m.cpu.top.isLt r
    have hprem : (setSt 0 r >>= fun _ ↦ modifyCpu fun cpu ↦ cpu.setC c2 false) m =
        .ok () { m with cpu := cpu.setC c2 false } := Exec.bind_eq hset rfl
    refine Iff.trans (b := SameEnd (setSt 0 r m)
      ((setSt 0 r >>= fun _ ↦ modifyCpu fun cpu ↦ cpu.setC c2 false) m)) Iff.rfl ?_
    rw [hset, hprem]
    have hbit (i : ℕ) := cpu.getLsbD_setC (i := c2) (by decide) false i
    constructor
    · intro hs
      have hc := hs.2.c c2 (by simp)
      exact .inr (hc.trans ((hbit c2).trans (if_pos rfl)))
    · rintro (hnone | hc)
      · cases hnone
      · refine ⟨rfl, (sameX87_fsw rfl (cpu.top_setC (by decide) false)).mpr fun i _ ↦ ?_⟩
        rw [hbit]
        split
        · subst i
          exact hc
        · rfl

theorem fldcw_iff : SameEnd (fldcw l m) (reading l fpuLdcw m) ↔ FpuOp.AgreesOn h l m .ldcw := by
  rw [FpuOp.AgreesOn, fldcw, reading, Exec.bind_apply, Exec.bind_apply]
  have hget : get l (.place .memAddr) 16 m = memRead l.addr 16 m := rfl
  rw [hget, memRead_apply]
  cases m.mem.tlbRead l.addr 16 with
  | none => exact iff_of_true ⟨rfl, .refl m⟩ (fun _ hv ↦ nomatch hv)
  | some v =>
    constructor
    · intro hs w hw
      cases hw
      exact hs.2.rounding
    · intro hr
      exact ⟨rfl, rfl, rfl, fun _ _ ↦ rfl, rfl, rfl, rfl, rfl, hr v rfl⟩

theorem getReal_apply (z : Real) (m : Machine) : getReal h l z m =
    match m.mem.tlbRead l.addr z.width with
    | some v =>
      match f80FromReal h z v with
      | some x => .ok x m
      | none => .wrong .noResult
    | none => .stop (.gpf l.addr) m := by
  have hget : get l (.place .memAddr) z.width m = memRead l.addr z.width m := rfl
  rw [getReal, Exec.bind_apply, hget, memRead_apply]
  cases m.mem.tlbRead l.addr z.width with
  | none => rfl
  | some v => exact f80_apply _ m

theorem fcom_iff (hi : m.cpu.top.toNat + stI l < 8) :
    SameEnd (fcom l m) (fpuCom (stI l) m) ↔ FpuOp.AgreesOn h l m .com := by
  have hcom : fpuCom (stI l) m = fpuCompare (m.cpu.entry (stI l)) m :=
    Exec.bind_ok (st_entry hi) _
  rw [hcom]
  exact compare_iff fun fsw htop ↦ st_of_same hi rfl htop

theorem fcomm_iff (z : Real) :
    SameEnd (fcomm h l z m) (reading l (fpuComm h z) m) ↔ FpuOp.AgreesOn h l m (.comm z) := by
  have hcomm : reading l (fpuComm h z) = getReal h l z >>= fpuCompare :=
    (Exec.bind_assoc _ _ _).symm
  rw [FpuOp.AgreesOn, hcomm]
  cases hv : m.mem.tlbRead l.addr z.width with
  | none =>
    have hstop : getReal h l z m = .stop (.gpf l.addr) m := by
      rw [getReal_apply, hv]
    refine iff_of_true ?_ (fun _ _ hw ↦ nomatch hw)
    rw [fcomm, fCompare, Exec.bind_ok (st_zero m), Exec.bind_stop hstop, Exec.bind_stop hstop]
    exact ⟨rfl, .refl m⟩
  | some v =>
    cases hx : f80FromReal h z v with
    | none =>
      have hwrong : getReal h l z m = .wrong .noResult := by
        simp only [getReal_apply, hv, hx]
      refine iff_of_true (.of_eq ?_) ?_
      · rw [fcomm, fCompare, Exec.bind_ok (st_zero m), Exec.bind_apply, Exec.bind_apply, hwrong]
      · intro w x hw hx'
        cases hw
        cases hx.symm.trans hx'
    | some b =>
      have hok (cpu : CpuState) :
          getReal h l z { m with cpu := cpu } = .ok b { m with cpu := cpu } := by
        simp only [getReal_apply, hv, hx]
      rw [Exec.bind_ok (hok m.cpu)]
      refine (compare_iff fun fsw _ ↦ hok _).trans ⟨fun hu w x hw hx' ↦ ?_, fun hu ↦ hu v b rfl hx⟩
      cases hw
      cases hx.symm.trans hx'
      exact hu

/-- Whose registers are in bounds, a macro has the effect of its counterpart exactly if
numbers that it compares are ordered, no flag of theirs is still to be computed
otherwise, and it does not change the rounding control. -/
theorem execFpu_iff {op : FpuOp} {x : Op Unit} (hx : op.call h l = some x)
    (hin : ∀ i ∈ op.regs l, m.cpu.top.toNat + i < 8) :
    SameEnd (execFpu h l op m) (x m) ↔ op.AgreesOn h l m := by
  have hsame {o o' : Outcome Stop Wrong Machine Unit} (ho : o = o') : SameEnd o o' ↔ True :=
    iff_of_true (.of_eq ho) trivial
  cases op <;> cases hx
  case arith op src dst => exact hsame (congrFun (farith_call op _ _) m)
  case iarith op z => exact hsame (fiarith_call op z)
  case arithm op z => exact hsame (farithm_call op z)
  case prem => exact fprem_iff (hin 1 (by simp [FpuOp.regs]))
  case ucomi => exact fucomi_iff (hin (stI l) (by simp [FpuOp.regs]))
  case com => exact fcom_iff (hin (stI l) (by simp [FpuOp.regs]))
  case comm z => exact fcomm_iff z
  case ldcw => exact fldcw_iff
  case ldm z => exact hsame (congrFun (Exec.bind_assoc _ _ _) m)
  case stm z =>
    have hstm : fpuStm h z m = .ok (f80ToReal h m.rounding (m.cpu.entry 0) z) m :=
      Exec.bind_eq (st_zero m) rfl
    exact hsame ((Exec.bind_ok (st_zero m) _).trans (Exec.bind_ok hstm fun f ↦ set l .memAddr f).symm)
  case ist z =>
    have hist : fpuIst z m = .ok ((f80ToInt m.rounding (m.cpu.entry 0)).setWidth z) m :=
      Exec.bind_eq (st_zero m) rfl
    exact hsame ((Exec.bind_ok (st_zero m) _).trans (Exec.bind_ok hist fun i ↦ set l .memAddr i).symm)
  all_goals exact hsame rfl

end

/-- The locals of an instruction on the register of the stack that has the number of `r`. -/
def Locals.stack (r : Reg32) : Locals :=
  { Locals.zero with modrm := { Locals.zero.modrm with base := some r } }

theorem execFpu_iff_fxch :
    (∀ i ∈ FpuOp.regs (.stack .ecx) .xch, Machine.zero.cpu.top.toNat + i < 8) ∧
    (SameEnd (execFpu Host.zero (.stack .ecx) .xch .zero) (fpuXch 1 .zero) ↔
      FpuOp.AgreesOn Host.zero (.stack .ecx) .zero .xch) := by
  have hin : ∀ i ∈ FpuOp.regs (.stack .ecx) .xch, Machine.zero.cpu.top.toNat + i < 8 := by decide
  exact ⟨hin, execFpu_iff rfl hin⟩

/-- A machine with a NaN in every register of the stack. -/
def nans : Machine := { Machine.zero with cpu := { CpuState.zero with fp := fun _ ↦ f80Nan } }

/-- `FCOM` of two NaNs leaves `c0` clear, where `fpu_com` sets it. -/
theorem not_execFpu_same : ¬∀ (h : Host) (l : Locals) (m : Machine) (op : FpuOp) (x : Op Unit),
    op.call h l = some x → (∀ i ∈ op.regs l, m.cpu.top.toNat + i < 8) →
    SameEnd (execFpu h l op m) (x m) := by
  intro hall
  have hs := hall Host.zero (.stack .ecx) nans .com (fpuCom 1) rfl (by decide)
  have hc0 (o o' : Outcome Stop Wrong Machine Unit) (ho : SameEnd o o') :
      o.state?.map (fun m ↦ m.cpu.fsw.getLsbD c0) =
        o'.state?.map (fun m ↦ m.cpu.fsw.getLsbD c0) := by
    cases o <;> cases o' <;> first | exact ho.elim | skip
    case wrong.wrong => rfl
    all_goals exact congrArg some (ho.2.c c0 (by simp))
  exact absurd (hc0 _ _ hs) (by decide +kernel)

end Isl.Emu
