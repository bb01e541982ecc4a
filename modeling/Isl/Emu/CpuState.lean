import Mathlib.Data.BitVec
import Mathlib.Logic.Function.Basic

/-!
The processor state of `emu/cpu.h`. The condition flags are kept in three
places: the word `eflags`, the bytes `cf` and `of`, and the operands and result
of the last instruction with one bit for each flag still to be computed.
-/

namespace Isl.Emu

abbrev Word := BitVec 16
abbrev Dword := BitVec 32
abbrev Qword := BitVec 64

inductive Reg32
  | eax
  | ecx
  | edx
  | ebx
  | esp
  | ebp
  | esi
  | edi
deriving DecidableEq

structure Float80 where
  signif : Qword
  signExp : Word
deriving DecidableEq

structure CpuState where
  regs : Reg32 → Dword
  xmm : Fin 8 → BitVec 128
  eip : Dword
  eflags : Dword
  cf : BitVec 8
  of : BitVec 8
  res : Dword
  op1 : Dword
  op2 : Dword
  pfRes : Bool
  zfRes : Bool
  sfRes : Bool
  afOps : Bool
  fp : Fin 8 → Float80
  fsw : Word
  fcw : Word
  gs : Word
  tlsPtr : Dword
  segfaultAddr : Dword
  trapno : Dword

def setBit (x : Dword) (i : ℕ) (b : Bool) : Dword :=
  if b then x ||| 1#32 <<< i else x &&& ~~~(1#32 <<< i)

theorem getLsbD_setBit (x : Dword) {i : ℕ} (hi : i < 32) (b : Bool) (j : ℕ) :
    (setBit x i b).getLsbD j = if j = i then b else x.getLsbD j := by
  have hone : (1#32 <<< i).getLsbD j = decide (j = i) :=
    (BitVec.getLsbD_twoPow i j).trans (by simp [hi, eq_comm])
  by_cases hj : j = i
  · subst hj
    cases b <;> simp [setBit, hone]
  · cases b
    · simp only [setBit, Bool.false_eq_true, if_false, BitVec.getLsbD_and, BitVec.getLsbD_not,
        hone, hj, decide_false, Bool.not_false, Bool.and_true]
      by_cases hlt : j < 32
      · simp [hlt]
      · simp [hlt, BitVec.getLsbD_of_ge x j (by omega)]
    · simp [setBit, hone, hj]

/-- The bits of `eflags`, each under its field name. -/
inductive FlagBit
  | cfBit
  | pad1
  | pf
  | pad2
  | af
  | pad3
  | zf
  | sf
  | tf
  | ifBit
  | df
  | ofBit
deriving DecidableEq

def FlagBit.index : FlagBit → ℕ
  | .cfBit => 0
  | .pad1 => 1
  | .pf => 2
  | .pad2 => 3
  | .af => 4
  | .pad3 => 5
  | .zf => 6
  | .sf => 7
  | .tf => 8
  | .ifBit => 9
  | .df => 10
  | .ofBit => 11

theorem FlagBit.index_lt (f : FlagBit) : f.index < 32 := by cases f <;> decide

theorem FlagBit.index_injective : Function.Injective FlagBit.index := by
  intro f g h
  cases f <;> cases g <;> first | rfl | cases h

/-- `__builtin_parity` of the low byte. -/
def parity (x : Dword) : Bool := (List.range 8).foldl (fun p i ↦ p ^^ x.getLsbD i) false

namespace CpuState

variable (cpu : CpuState)

def flag (f : FlagBit) : Bool := cpu.eflags.getLsbD f.index

/-! The flag macros. -/

def ZF : Bool := if cpu.zfRes then cpu.res == 0 else cpu.flag .zf
def SF : Bool := if cpu.sfRes then cpu.res.msb else cpu.flag .sf
def CF : BitVec 8 := cpu.cf
def OF : BitVec 8 := cpu.of
def PF : Bool := if cpu.pfRes then !parity cpu.res else cpu.flag .pf
def AF : Bool := if cpu.afOps then (cpu.op1 ^^^ cpu.op2 ^^^ cpu.res).getLsbD 4 else cpu.flag .af

/-- Every macro reads a bit of its own, so the bits are all taken from the
state before. -/
def collapseFlags : CpuState :=
  let bits : List (FlagBit × Bool) :=
    [(.zf, cpu.ZF), (.sf, cpu.SF), (.pf, cpu.PF), (.ofBit, cpu.of.getLsbD 0),
      (.cfBit, cpu.cf.getLsbD 0), (.af, cpu.AF), (.pad1, true), (.pad2, false), (.pad3, false),
      (.ifBit, true)]
  { cpu with
    eflags := bits.foldl (fun eflags b ↦ setBit eflags b.1.index b.2) cpu.eflags
    zfRes := false
    sfRes := false
    pfRes := false
    afOps := false }

def expandFlags : CpuState :=
  { cpu with
    of := if cpu.flag .ofBit then 1 else 0
    cf := if cpu.flag .cfBit then 1 else 0
    zfRes := false
    sfRes := false
    pfRes := false
    afOps := false }

/-- The flags as they are read, wherever they are kept. -/
structure Flags where
  cf : BitVec 8
  of : BitVec 8
  zf : Bool
  sf : Bool
  pf : Bool
  af : Bool
  df : Bool
deriving DecidableEq

def flags : Flags :=
  { cf := cpu.CF, of := cpu.OF, zf := cpu.ZF, sf := cpu.SF, pf := cpu.PF, af := cpu.AF,
    df := cpu.flag .df }

theorem flag_collapseFlags (f : FlagBit) : cpu.collapseFlags.flag f =
    match f with
    | .zf => cpu.ZF
    | .sf => cpu.SF
    | .pf => cpu.PF
    | .af => cpu.AF
    | .cfBit => cpu.cf.getLsbD 0
    | .ofBit => cpu.of.getLsbD 0
    | .pad1 | .ifBit => true
    | .pad2 | .pad3 => false
    | .tf => cpu.flag .tf
    | .df => cpu.flag .df := by
  simp only [flag, collapseFlags, List.foldl_cons, List.foldl_nil,
    getLsbD_setBit _ (FlagBit.index_lt _), FlagBit.index_injective.eq_iff]
  cases f <;> rfl

/-- Collapsing the flags changes none of them. -/
theorem flags_collapseFlags : cpu.collapseFlags.flags = cpu.flags := by
  have hz : cpu.collapseFlags.ZF = cpu.ZF := cpu.flag_collapseFlags .zf
  have hs : cpu.collapseFlags.SF = cpu.SF := cpu.flag_collapseFlags .sf
  have hp : cpu.collapseFlags.PF = cpu.PF := cpu.flag_collapseFlags .pf
  have ha : cpu.collapseFlags.AF = cpu.AF := cpu.flag_collapseFlags .af
  have hd : cpu.collapseFlags.flag .df = cpu.flag .df := cpu.flag_collapseFlags .df
  simp only [flags, hz, hs, hp, ha, hd]
  rfl

end CpuState

end Isl.Emu
