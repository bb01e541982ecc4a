import Isl.Emu.FlagRun

/-!
What every step of the interpreter keeps: a property that its writes to memory keep
and its changes of the processor. Where it is only kept while the flags are left alone,
the instructions that leave them alone keep it.
-/

namespace Isl.Emu

open Isl.Lib Interp

/-- Two processors with the same flags, those that are lazy included. -/
structure CpuState.SameFlags (cpu cpu' : CpuState) : Prop where
  cf : cpu'.cf = cpu.cf
  of : cpu'.of = cpu.of
  res : cpu'.res = cpu.res
  zfRes : cpu'.zfRes = cpu.zfRes
  sfRes : cpu'.sfRes = cpu.sfRes
  pfRes : cpu'.pfRes = cpu.pfRes
  eflags : cpu'.eflags = cpu.eflags

theorem CpuState.SameFlags.trans {a b c : CpuState} (h : a.SameFlags b) (h' : b.SameFlags c) :
    a.SameFlags c :=
  ⟨h'.cf.trans h.cf, h'.of.trans h.of, h'.res.trans h.res, h'.zfRes.trans h.zfRes,
    h'.sfRes.trans h.sfRes, h'.pfRes.trans h.pfRes, h'.eflags.trans h.eflags⟩

/-- A property of machines that survives a write to memory, and a change of the processor
besides the flags. -/
structure Steady (P : Machine → Prop) : Prop where
  memWrite : ∀ addr (w : ℕ) (v : BitVec w), Exec.Keeps P (memWrite addr v)
  plain : ∀ f, (∀ cpu, CpuState.SameFlags cpu (f cpu)) → Exec.Keeps P (modifyCpu f)

/-- It survives every change of the processor. -/
def Free (P : Machine → Prop) : Prop := ∀ f, Exec.Keeps P (modifyCpu f)

def Str.Moves : Interp.Str → Prop
  | .scas => False
  | .cmps => False
  | _ => True

def Insn.Neutral : Insn → Prop
  | .nop => True
  | .undefined => True
  | .mov _ dst _ => dst ≠ .eflags
  | .movzx _ dst _ _ => dst ≠ .eflags
  | .movsx _ dst _ _ => dst ≠ .eflags
  | .xchg src dst _ => src ≠ .eflags ∧ dst ≠ .eflags
  | .push _ _ => True
  | .pop thing _ => thing ≠ .eflags
  | .leave => True
  | .int _ => True
  | .not val _ => val ≠ .eflags
  | .div _ _ => True
  | .idiv _ _ => True
  | .cvt => True
  | .cvte => True
  | .call _ => True
  | .callRel _ => True
  | .jmp _ => True
  | .jmpRel _ => True
  | .jRel _ _ _ => True
  | .jcxzRel _ => True
  | .retNear _ => True
  | .str op _ => Str.Moves op
  | .repStr _ op _ => Str.Moves op
  | .bswap dst => dst ≠ .eflags
  | .setCond _ _ val => val ≠ .eflags
  | .cmov _ _ _ src _ => src ≠ .eflags
  | .rdtsc => True
  | .cpuid => True
  | .xorp _ dst => dst ≠ .eflags
  | .padd _ dst => dst ≠ .eflags
  | .psub _ dst => dst ≠ .eflags
  | .psrlq _ dst => dst ≠ .eflags
  | .pcmpeqd _ dst => dst ≠ .eflags
  | .movq _ dst => dst ≠ .eflags
  | .movd _ dst => dst ≠ .eflags
  | .cvttsd2si dst => dst ≠ .eflags
  | .fpu op _ => op ≠ .ucomi
  | _ => False

def Machine.Neutral (m : Machine) : Prop :=
  ∀ insn l w, m.insn = some (insn, l, w) → insn.Neutral

namespace Steady

variable {P : Machine → Prop} {l : Locals} {src : Operand} {dst : Place}

/-! What the macros are made of. -/

theorem get (what : Operand) (w : ℕ) : Exec.Keeps P (get l what w) := by
  intro m hm
  rw [get_eq]
  split
  · exact hm
  · rw [memRead_apply]
    split <;> exact hm

theorem memRead (addr : Dword) (w : ℕ) : Exec.Keeps P (memRead addr w) := by
  intro m hm
  rw [memRead_apply]
  split <;> exact hm

theorem holds (cond : Cond) (negated : Bool) : Exec.Keeps P (holds cond negated) :=
  Exec.Keeps.get.bind fun _ ↦ .pure _

theorem setRegister (hp : Steady P) (q : Regptr) {w : ℕ} (v : BitVec w) :
    Exec.Keeps P (modifyCpu fun cpu ↦ cpu.setRegister q v) := by
  apply hp.plain
  intro cpu
  rw [CpuState.setRegister]
  split
  · exact ⟨rfl, rfl, rfl, rfl, rfl, rfl, rfl⟩
  · split
    · exact ⟨rfl, rfl, rfl, rfl, rfl, rfl, rfl⟩
    · split <;> exact ⟨rfl, rfl, rfl, rfl, rfl, rfl, rfl⟩

theorem setReg (hp : Steady P) (r : Reg32) (f : CpuState → Dword) :
    Exec.Keeps P (modifyCpu fun cpu ↦ cpu.setReg r (f cpu)) :=
  hp.plain _ fun _ ↦ ⟨rfl, rfl, rfl, rfl, rfl, rfl, rfl⟩

theorem setEip (hp : Steady P) (f : CpuState → Dword) :
    Exec.Keeps P (modifyCpu fun cpu ↦ { cpu with eip := f cpu }) :=
  hp.plain _ fun _ ↦ ⟨rfl, rfl, rfl, rfl, rfl, rfl, rfl⟩

theorem setFsw (hp : Steady P) (f : CpuState → Word) :
    Exec.Keeps P (modifyCpu fun cpu ↦ cpu.setFsw (f cpu)) :=
  hp.plain _ fun _ ↦ ⟨rfl, rfl, rfl, rfl, rfl, rfl, rfl⟩

theorem set (hp : Steady P) (hdst : dst ≠ .eflags ∨ Free P) {w : ℕ} (v : BitVec w) :
    Exec.Keeps P (set l dst v) := by
  cases dst with
  | modrmReg => exact hp.setRegister _ v
  | modrmVal =>
    simp only [Emu.set]
    split
    · exact hp.setRegister _ v
    · exact hp.memWrite _ _ v
  | memAddr => exact hp.memWrite _ _ v
  | eflags => exact hdst.resolve_left (absurd rfl) _
  | _ => exact hp.plain _ fun _ ↦ ⟨rfl, rfl, rfl, rfl, rfl, rfl, rfl⟩

theorem mov (hp : Steady P) (hdst : dst ≠ .eflags ∨ Free P) (src : Operand) (z : ℕ) :
    Exec.Keeps P (mov l src dst z) :=
  (get _ _).bind fun _ ↦ hp.set hdst _

theorem xchg (hp : Steady P) {a b : Place} (ha : a ≠ .eflags ∨ Free P) (hb : b ≠ .eflags ∨ Free P)
    (z : ℕ) : Exec.Keeps P (xchg l a b z) := by
  refine (get _ _).bind fun _ ↦ ?_
  refine (get _ _).bind fun _ ↦ ?_
  exact (hp.set ha _).bind fun _ ↦ hp.set hb _

theorem push (hp : Steady P) (thing : Operand) (z : ℕ) : Exec.Keeps P (push l thing z) := by
  refine (get _ _).bind fun _ ↦ ?_
  refine Exec.Keeps.get.bind fun _ ↦ ?_
  exact (hp.memWrite _ _ _).bind fun _ ↦ hp.setReg _ _

theorem pop (hp : Steady P) (hdst : dst ≠ .eflags ∨ Free P) (z : ℕ) : Exec.Keeps P (pop l dst z) := by
  refine Exec.Keeps.get.bind fun _ ↦ ?_
  refine (memRead _ _).bind fun _ ↦ ?_
  exact (hp.set hdst _).bind fun _ ↦ hp.setReg _ _

theorem divide (hp : Steady P) (rem quot : {n : ℕ} → BitVec n → BitVec n → BitVec n) (val : Place)
    (z : ℕ) : Exec.Keeps P (divide l rem quot val z) := by
  refine (get _ _).bind fun _ ↦ .ite (.stop _) ?_
  refine (get _ _).bind fun _ ↦ (get _ _).bind fun _ ↦ ?_
  refine (get _ _).bind fun _ ↦ .ite (.wrong _) ?_
  refine (hp.set (.inl (by decide)) _).bind fun _ ↦ ?_
  exact (get _ _).bind fun _ ↦ .ite (.wrong _) (hp.set (.inl (by decide)) _)

/-! Control transfer. -/

theorem fixEip (hp : Steady P) : Exec.Keeps P (fixEip l) := .ite (hp.setEip _) (.pure _)

theorem jmp (hp : Steady P) (loc : Operand) : Exec.Keeps P (jmp l loc) := by
  refine (get _ _).bind fun _ ↦ ?_
  exact (hp.setEip _).bind fun _ ↦ hp.fixEip

theorem jmpRel (hp : Steady P) (offset : Operand) : Exec.Keeps P (jmpRel l offset) := by
  refine (get _ _).bind fun _ ↦ ?_
  exact (hp.setEip _).bind fun _ ↦ hp.fixEip

theorem retNear (hp : Steady P) (args : Operand) : Exec.Keeps P (retNear l args) := by
  refine (hp.pop (.inl (by decide)) _).bind fun _ ↦ hp.fixEip.bind fun _ ↦ ?_
  exact (get _ _).bind fun _ ↦ hp.setReg _ _

/-! Arithmetic, which changes the flags. -/

theorem setAf (hfree : Free P) (a b : Operand) (z : ℕ) : Exec.Keeps P (setAf l a b z) := by
  refine (get _ _).bind fun _ ↦ (hfree _).bind fun _ ↦ ?_
  exact (get _ _).bind fun _ ↦ (hfree _).bind fun _ ↦ hfree _

theorem signedOverflow (hfree : Free P) (what : Arith) {z : ℕ} (a b : BitVec z) :
    Exec.Keeps P (signedOverflow what a b) := (hfree _).bind fun _ ↦ .pure _

theorem unsignedOverflow (hfree : Free P) (what : Arith) {z : ℕ} (a b : BitVec z) :
    Exec.Keeps P (unsignedOverflow what a b) := (hfree _).bind fun _ ↦ .pure _

theorem setRes (hfree : Free P) {z : ℕ} (v : BitVec z) : Exec.Keeps P (setRes v) :=
  (hfree _).bind fun _ ↦ hfree _

theorem setFromRes (hp : Steady P) (hfree : Free P) (dst : Place) (z : ℕ) :
    Exec.Keeps P (setFromRes l dst z) := Exec.Keeps.get.bind fun _ ↦ hp.set (.inr hfree) _

theorem clearCfOfAf (hfree : Free P) : Exec.Keeps P clearCfOfAf :=
  (hfree _).bind fun _ ↦ (hfree _).bind fun _ ↦ hfree _

theorem test (hfree : Free P) (src : Operand) (dst : Place) (z : ℕ) :
    Exec.Keeps P (test l src dst z) := by
  refine (get _ _).bind fun _ ↦ (get _ _).bind fun _ ↦ ?_
  exact (setRes hfree _).bind fun _ ↦ clearCfOfAf hfree

theorem add (hp : Steady P) (hfree : Free P) (src : Operand) (dst : Place) (z : ℕ) :
    Exec.Keeps P (add l src dst z) := by
  refine (setAf hfree _ _ _).bind fun _ ↦ (get _ _).bind fun _ ↦ (get _ _).bind fun _ ↦ ?_
  refine (unsignedOverflow hfree _ _ _).bind fun _ ↦ (hfree _).bind fun _ ↦ ?_
  refine (get _ _).bind fun _ ↦ (get _ _).bind fun _ ↦ ?_
  refine (signedOverflow hfree _ _ _).bind fun _ ↦ (hfree _).bind fun _ ↦ ?_
  exact (hp.setFromRes hfree _ _).bind fun _ ↦ hfree _

theorem sub (hp : Steady P) (hfree : Free P) (src : Operand) (dst : Place) (z : ℕ) :
    Exec.Keeps P (sub l src dst z) := by
  refine (setAf hfree _ _ _).bind fun _ ↦ (get _ _).bind fun _ ↦ (get _ _).bind fun _ ↦ ?_
  refine (signedOverflow hfree _ _ _).bind fun _ ↦ (hfree _).bind fun _ ↦ ?_
  refine (get _ _).bind fun _ ↦ (get _ _).bind fun _ ↦ ?_
  refine (unsignedOverflow hfree _ _ _).bind fun _ ↦ (hfree _).bind fun _ ↦ ?_
  exact (hp.setFromRes hfree _ _).bind fun _ ↦ hfree _

theorem cmp (hfree : Free P) (a b : Operand) (z : ℕ) : Exec.Keeps P (cmp l a b z) := by
  refine (setAf hfree _ _ _).bind fun _ ↦ (get _ _).bind fun _ ↦ (get _ _).bind fun _ ↦ ?_
  refine (unsignedOverflow hfree _ _ _).bind fun _ ↦ (hfree _).bind fun _ ↦ ?_
  refine (get _ _).bind fun _ ↦ (get _ _).bind fun _ ↦ ?_
  refine (signedOverflow hfree _ _ _).bind fun _ ↦ (hfree _).bind fun _ ↦ ?_
  exact hfree _

theorem neg (hp : Steady P) (hfree : Free P) (val : Place) (z : ℕ) :
    Exec.Keeps P (Interp.neg l val z) := by
  refine (setAf hfree _ _ _).bind fun _ ↦ (get _ _).bind fun _ ↦ ?_
  refine (signedOverflow hfree _ _ _).bind fun _ ↦ (hfree _).bind fun _ ↦ ?_
  refine (get _ _).bind fun _ ↦ ?_
  refine (unsignedOverflow hfree _ _ _).bind fun _ ↦ (hfree _).bind fun _ ↦ ?_
  exact (hp.setFromRes hfree _ _).bind fun _ ↦ hfree _

theorem orCfAndEq (ov : BitVec 8) (src : Operand) {z : ℕ} (v : BitVec z) :
    Exec.Keeps P (orCfAndEq l ov src v) :=
  Exec.Keeps.get.bind fun _ ↦ .ite (.pure _) (.ite (.pure _) ((get _ _).bind fun _ ↦ .pure _))

theorem carry (hp : Steady P) (hfree : Free P) (what : Arith) (src : Operand) (dst : Place) (z : ℕ) :
    Exec.Keeps P (carry l what src dst z) := by
  have hplus : Exec.Keeps P (getPlusCf l src z) :=
    (get _ _).bind fun _ ↦ Exec.Keeps.get.bind fun _ ↦ .pure _
  refine (setAf hfree _ _ _).bind fun _ ↦ (get _ _).bind fun _ ↦ hplus.bind fun _ ↦ ?_
  refine (signedOverflow hfree _ _ _).bind fun _ ↦ (orCfAndEq _ _ _).bind fun _ ↦ ?_
  refine (hfree _).bind fun _ ↦ (get _ _).bind fun _ ↦ hplus.bind fun _ ↦ ?_
  refine (unsignedOverflow hfree _ _ _).bind fun _ ↦ (orCfAndEq _ _ _).bind fun _ ↦ ?_
  exact (hfree _).bind fun _ ↦ (hp.setFromRes hfree _ _).bind fun _ ↦ hfree _

theorem bitwise (hp : Steady P) (hfree : Free P) (f : {z : ℕ} → BitVec z → BitVec z → BitVec z)
    (src : Operand) (dst : Place) (z : ℕ) : Exec.Keeps P (bitwise l f src dst z) := by
  refine (get _ _).bind fun _ ↦ (get _ _).bind fun _ ↦ (hp.set (.inr hfree) _).bind fun _ ↦ ?_
  exact (clearCfOfAf hfree).bind fun _ ↦ (get _ _).bind fun _ ↦ setRes hfree _

theorem arith (hp : Steady P) (hfree : Free P) (op : ArithOp) (src : Operand) (dst : Place) (z : ℕ) :
    Exec.Keeps P (execArith l src dst z op) := by
  cases op with
  | add => exact hp.add hfree _ _ _
  | or => exact hp.bitwise hfree (· ||| ·) _ _ _
  | adc => exact hp.carry hfree _ _ _ _
  | sbb => exact hp.carry hfree _ _ _ _
  | and => exact hp.bitwise hfree (· &&& ·) _ _ _
  | sub => exact hp.sub hfree _ _ _
  | xor => exact hp.bitwise hfree (· ^^^ ·) _ _ _
  | cmp => exact cmp hfree _ _ _

theorem mul1 (hp : Steady P) (hfree : Free P) (val : Place) (z : ℕ) :
    Exec.Keeps P (mul1 l val z) := by
  refine (get _ _).bind fun _ ↦ (get _ _).bind fun _ ↦ ?_
  refine (hp.set (.inr hfree) _).bind fun _ ↦ (hp.set (.inr hfree) _).bind fun _ ↦ ?_
  exact (hfree _).bind fun _ ↦ (hfree _).bind fun _ ↦ (hfree _).bind fun _ ↦ hfree _

theorem imul1 (hp : Steady P) (hfree : Free P) (val : Place) (z : ℕ) :
    Exec.Keeps P (imul1 l val z) := by
  refine (get _ _).bind fun _ ↦ (get _ _).bind fun _ ↦ ?_
  refine (hp.set (.inr hfree) _).bind fun _ ↦ (hp.set (.inr hfree) _).bind fun _ ↦ ?_
  exact (hfree _).bind fun _ ↦ (hfree _).bind fun _ ↦ hfree _

theorem imul2 (hp : Steady P) (hfree : Free P) (val : Operand) (reg : Place) (z : ℕ) :
    Exec.Keeps P (imul2 l val reg z) := by
  refine (get _ _).bind fun _ ↦ (get _ _).bind fun _ ↦ (signedOverflow hfree _ _ _).bind fun _ ↦ ?_
  refine (hfree _).bind fun _ ↦ (hfree _).bind fun _ ↦ ?_
  exact (hp.setFromRes hfree _ _).bind fun _ ↦ hfree _

theorem imul3 (hp : Steady P) (hfree : Free P) (factor src : Operand) (dst : Place) (z : ℕ) :
    Exec.Keeps P (imul3 l factor src dst z) := by
  refine (get _ _).bind fun _ ↦ (get _ _).bind fun _ ↦ (signedOverflow hfree _ _ _).bind fun _ ↦ ?_
  refine (hfree _).bind fun _ ↦ (hfree _).bind fun _ ↦ ?_
  exact (hp.setFromRes hfree _ _).bind fun _ ↦ hfree _

/-! Shifts and bits. -/

theorem shift (hp : Steady P) (hfree : Free P) (op : ShiftOp) (count : Operand) (val : Place) (z : ℕ) :
    Exec.Keeps P (execShift l count val z op) := by
  cases op with
  | rol =>
    refine (get _ _).bind fun _ ↦ .ite ((get _ _).bind fun _ ↦ ?_) (.pure _)
    refine (hp.set (.inr hfree) _).bind fun _ ↦ (get _ _).bind fun _ ↦ (hfree _).bind fun _ ↦ ?_
    exact .ite ((get _ _).bind fun _ ↦ Exec.Keeps.get.bind fun _ ↦ hfree _) (.pure _)
  | ror =>
    refine (get _ _).bind fun _ ↦ .ite ((get _ _).bind fun _ ↦ ?_) (.pure _)
    refine (hp.set (.inr hfree) _).bind fun _ ↦ (get _ _).bind fun _ ↦ (hfree _).bind fun _ ↦ ?_
    exact .ite ((get _ _).bind fun _ ↦ Exec.Keeps.get.bind fun _ ↦ hfree _) (.pure _)
  | shl =>
    refine (get _ _).bind fun _ ↦ .ite ((get _ _).bind fun _ ↦ (hfree _).bind fun _ ↦ ?_) (.pure _)
    refine (get _ _).bind fun _ ↦ Exec.Keeps.get.bind fun _ ↦ (hfree _).bind fun _ ↦ ?_
    refine (get _ _).bind fun _ ↦ (hp.set (.inr hfree) _).bind fun _ ↦ (get _ _).bind fun _ ↦ ?_
    exact (setRes hfree _).bind fun _ ↦ hfree _
  | shr =>
    refine (get _ _).bind fun _ ↦ .ite ((get _ _).bind fun _ ↦ (hfree _).bind fun _ ↦ ?_) (.pure _)
    refine (get _ _).bind fun _ ↦ (hfree _).bind fun _ ↦ (get _ _).bind fun _ ↦ ?_
    refine (hp.set (.inr hfree) _).bind fun _ ↦ (get _ _).bind fun _ ↦ ?_
    exact (setRes hfree _).bind fun _ ↦ hfree _
  | sar =>
    refine (get _ _).bind fun _ ↦ .ite ((get _ _).bind fun _ ↦ (hfree _).bind fun _ ↦ ?_) (.pure _)
    refine (hfree _).bind fun _ ↦ (get _ _).bind fun _ ↦ (hp.set (.inr hfree) _).bind fun _ ↦ ?_
    exact (get _ _).bind fun _ ↦ (setRes hfree _).bind fun _ ↦ hfree _

theorem shrd (hp : Steady P) (hfree : Free P) (count extra : Operand) (dst : Place) (z : ℕ) :
    Exec.Keeps P (shrd l count extra dst z) := by
  refine (get _ _).bind fun _ ↦ .ite ((get _ _).bind fun _ ↦ (hfree _).bind fun _ ↦ ?_) (.pure _)
  refine (get _ _).bind fun _ ↦ (get _ _).bind fun _ ↦ (hfree _).bind fun _ ↦ ?_
  exact (hp.setFromRes hfree _ _).bind fun _ ↦ hfree _

theorem shld (hp : Steady P) (hfree : Free P) (count extra : Operand) (dst : Place) (z : ℕ) :
    Exec.Keeps P (shld l count extra dst z) := by
  refine (get _ _).bind fun _ ↦ .ite ?_ (.pure _)
  refine (get _ _).bind fun _ ↦ (get _ _).bind fun _ ↦ (hfree _).bind fun _ ↦ ?_
  exact (hp.setFromRes hfree _ _).bind fun _ ↦ hfree _

theorem bt (hfree : Free P) (bit : Operand) (val : Place) (z : ℕ) :
    Exec.Keeps P (bt l bit val z) := by
  have hword (i : ℕ) : Exec.Keeps P (bitWord l i val z) := .ite (memRead _ _) (get _ _)
  have hbit : Exec.Keeps P (getBit l bit val z) :=
    (get _ _).bind fun _ ↦ (hword _).bind fun _ ↦ .pure _
  exact hbit.bind fun _ ↦ hfree _

theorem btSet (hp : Steady P) (hfree : Free P) (f : {z : ℕ} → BitVec z → BitVec z → BitVec z)
    (bit : Operand) (val : Place) (z : ℕ) : Exec.Keeps P (btSet l f bit val z) := by
  have hmsk : Exec.Keeps P (msk l bit z) := (get _ _).bind fun _ ↦ .pure _
  refine (bt hfree _ _ _).bind fun _ ↦ (get _ _).bind fun _ ↦ ?_
  exact hmsk.bind fun _ ↦ hp.set (.inr hfree) _

theorem bitScan (hp : Steady P) (hfree : Free P) (index : {z : ℕ} → BitVec z → BitVec z)
    (src : Operand) (dst : Place) (z : ℕ) : Exec.Keeps P (bitScan l index src dst z) := by
  refine (get _ _).bind fun _ ↦ (hfree _).bind fun _ ↦ ?_
  refine Exec.Keeps.get.bind fun _ ↦ .ite ?_ (.pure _)
  exact (get _ _).bind fun _ ↦ hp.set (.inr hfree) _

/-! String instructions. -/

theorem str (hp : Steady P) {op : Str} (hop : Str.Moves op ∨ Free P) (z : ℕ) :
    Exec.Keeps P (str l z op) := by
  have hbump (r : Reg32) : Exec.Keeps P (bump r z) := hp.setReg _ _
  cases op with
  | movs =>
    refine Exec.Keeps.get.bind fun _ ↦ (memRead _ _).bind fun _ ↦ ?_
    exact (hp.memWrite _ _ _).bind fun _ ↦ (hbump _).bind fun _ ↦ hbump _
  | stos =>
    refine Exec.Keeps.get.bind fun _ ↦ (get _ _).bind fun _ ↦ ?_
    exact (hp.memWrite _ _ _).bind fun _ ↦ hbump _
  | lods =>
    refine Exec.Keeps.get.bind fun _ ↦ (memRead _ _).bind fun _ ↦ ?_
    exact (hp.set (.inl (by decide)) _).bind fun _ ↦ hbump _
  | scas => exact (cmp (hop.resolve_left id) _ _ _).bind fun _ ↦ hbump _
  | cmps =>
    exact (cmp (hop.resolve_left id) _ _ _).bind fun _ ↦ (hbump _).bind fun _ ↦ hbump _

theorem repLoop (hp : Steady P) {op : Str} (hop : Str.Moves op ∨ Free P) (kind : Rep) (z n : ℕ) :
    Exec.Keeps P (repLoop l kind op z n) := by
  induction n with
  | zero => exact .pure _
  | succ n ih =>
    refine Exec.Keeps.get.bind fun _ ↦ .ite ?_ (.pure _)
    refine (hp.str hop _).bind fun _ ↦ (hp.setReg _ _).bind fun _ ↦ ?_
    exact Exec.Keeps.get.bind fun _ ↦ .ite (.pure _) ih

theorem cpuid (hp : Steady P) : Exec.Keeps P cpuid := by
  apply hp.plain
  intro cpu
  split <;> exact ⟨rfl, rfl, rfl, rfl, rfl, rfl, rfl⟩

/-! The two other units. -/

section

variable {h : Host}

theorem lanes (hp : Steady P) (hdst : dst ≠ .eflags ∨ Free P) (f : Qword → Qword → Qword)
    (src : Operand) : Exec.Keeps P (lanes l f src dst) :=
  (get _ _).bind fun _ ↦ (get _ _).bind fun _ ↦ hp.set hdst _

theorem st (i : ℕ) : Exec.Keeps P (st i) := by
  refine Exec.Keeps.get.bind fun m ↦ ?_
  cases stIndex m.cpu i with
  | none => exact .wrong _
  | some j => exact .pure _

theorem setSt (hp : Steady P) (i : ℕ) (f : Float80) : Exec.Keeps P (setSt i f) := by
  refine Exec.Keeps.get.bind fun m ↦ ?_
  cases stIndex m.cpu i with
  | none => exact .wrong _
  | some j => exact hp.plain _ fun _ ↦ ⟨rfl, rfl, rfl, rfl, rfl, rfl, rfl⟩

theorem roundingMode : Exec.Keeps P roundingMode := Exec.Keeps.get.bind fun _ ↦ .pure _

theorem f80 (x : RoundingMode → Option Float80) : Exec.Keeps P (f80 x) :=
  roundingMode.bind fun _ ↦ .ofOption _ _

theorem lt (a b : Float80) : Exec.Keeps P (lt a b) := roundingMode.bind fun _ ↦ .ofOption _ _

theorem getReal (z : Real) : Exec.Keeps P (getReal h l z) := (get _ _).bind fun _ ↦ f80 _

theorem fpush (hp : Steady P) (f : Float80) : Exec.Keeps P (fpush f) :=
  (hp.setFsw _).bind fun _ ↦ hp.setSt _ _

theorem fucomi (hfree : Free P) : Exec.Keeps P (fucomi l) := by
  refine (st _).bind fun _ ↦ (st _).bind fun _ ↦ (hfree _).bind fun _ ↦ ?_
  refine (st _).bind fun _ ↦ (st _).bind fun _ ↦ (lt _ _).bind fun _ ↦ ?_
  exact (hfree _).bind fun _ ↦ hfree _

theorem fCompare (hp : Steady P) {x : Op Float80} (hx : Exec.Keeps P x) :
    Exec.Keeps P (fCompare x) := by
  refine (st _).bind fun _ ↦ hx.bind fun _ ↦ (lt _ _).bind fun _ ↦ ?_
  refine (hp.setFsw _).bind fun _ ↦ (hp.setFsw _).bind fun _ ↦ (hp.setFsw _).bind fun _ ↦ ?_
  exact (st _).bind fun _ ↦ hx.bind fun _ ↦ hp.setFsw _

theorem fpu (hp : Steady P) {op : FpuOp} (hop : op ≠ .ucomi ∨ Free P) :
    Exec.Keeps P (execFpu h l op) := by
  cases op with
  | arith op src dst =>
    refine (st _).bind fun _ ↦ (st _).bind fun _ ↦ ?_
    exact (f80 _).bind fun _ ↦ hp.setSt _ _
  | iarith op z =>
    refine (st _).bind fun _ ↦ (get _ _).bind fun _ ↦ (f80 _).bind fun _ ↦ ?_
    exact (f80 _).bind fun _ ↦ hp.setSt _ _
  | arithm op z =>
    refine (st _).bind fun _ ↦ (getReal _).bind fun _ ↦ ?_
    exact (f80 _).bind fun _ ↦ hp.setSt _ _
  | chs => exact (st _).bind fun _ ↦ hp.setSt _ _
  | abs => exact (st _).bind fun _ ↦ hp.setSt _ _
  | prem =>
    refine (st _).bind fun _ ↦ (st _).bind fun _ ↦ ?_
    exact (f80 _).bind fun _ ↦ hp.setSt _ _
  | ucomi => exact fucomi (hop.resolve_left (absurd rfl))
  | com => exact hp.fCompare (st _)
  | comm z => exact hp.fCompare (getReal _)
  | ild z => exact (get _ _).bind fun _ ↦ (f80 _).bind fun _ ↦ hp.fpush _
  | ld => exact (st _).bind fun _ ↦ hp.fpush _
  | ldm z => exact (getReal _).bind fun _ ↦ hp.fpush _
  | ldc what => exact hp.fpush _
  | stm z => exact (st _).bind fun _ ↦ roundingMode.bind fun _ ↦ hp.set (.inl (by decide)) _
  | ist z => exact (st _).bind fun _ ↦ roundingMode.bind fun _ ↦ hp.set (.inl (by decide)) _
  | st => exact (Steady.st _).bind fun _ ↦ hp.setSt _ _
  | xch =>
    refine (st _).bind fun _ ↦ (st _).bind fun _ ↦ ?_
    exact (hp.setSt _ _).bind fun _ ↦ hp.setSt _ _
  | stsw => exact Exec.Keeps.get.bind fun _ ↦ hp.set (.inl (by decide)) _
  | stcw => exact Exec.Keeps.get.bind fun _ ↦ hp.set (.inl (by decide)) _
  | ldcw =>
    exact (get _ _).bind fun _ ↦ hp.plain _ fun _ ↦ ⟨rfl, rfl, rfl, rfl, rfl, rfl, rfl⟩
  | patan =>
    refine (st _).bind fun _ ↦ (st _).bind fun _ ↦ roundingMode.bind fun _ ↦ ?_
    exact (f80 _).bind fun _ ↦ (hp.setSt _ _).bind fun _ ↦ hp.setFsw _

/-! All instructions, and the steps. -/

theorem exec (hp : Steady P) {insn : Insn} (hn : insn.Neutral ∨ Free P) :
    Exec.Keeps P (exec h l insn) := by
  cases insn with
  | nop => exact .pure _
  | undefined => exact .stop _
  | mov src dst z => exact hp.mov hn _ _
  | movzx src dst zs zd => exact (get _ _).bind fun _ ↦ hp.set hn _
  | movsx src dst zs zd => exact (get _ _).bind fun _ ↦ hp.set hn _
  | xchg src dst z => exact hp.xchg (hn.imp_left And.left) (hn.imp_left And.right) _
  | push thing z => exact hp.push _ _
  | pop thing z => exact hp.pop hn _
  | leave =>
    exact (hp.mov (.inl (by decide)) _ _).bind fun _ ↦ hp.pop (.inl (by decide)) _
  | int code => exact (get _ _).bind fun _ ↦ .stop _
  | test src dst z => exact test (hn.resolve_left id) _ _ _
  | arith op src dst z => exact hp.arith (hn.resolve_left id) _ _ _ _
  | inc val z =>
    have hfree := hn.resolve_left id
    exact Exec.Keeps.get.bind fun _ ↦ (hp.add hfree _ _ _).bind fun _ ↦ hfree _
  | dec val z =>
    have hfree := hn.resolve_left id
    exact Exec.Keeps.get.bind fun _ ↦ (hp.sub hfree _ _ _).bind fun _ ↦ hfree _
  | not val z => exact (get _ _).bind fun _ ↦ hp.set hn _
  | neg val z => exact hp.neg (hn.resolve_left id) _ _
  | mul1 val z => exact hp.mul1 (hn.resolve_left id) _ _
  | imul1 val z => exact hp.imul1 (hn.resolve_left id) _ _
  | imul2 val reg z => exact hp.imul2 (hn.resolve_left id) _ _ _
  | imul3 factor src dst z => exact hp.imul3 (hn.resolve_left id) _ _ _ _
  | div val z => exact hp.divide _ _ _ _
  | idiv val z => exact hp.divide _ _ _ _
  | cvt => exact (get _ _).bind fun _ ↦ hp.set (.inl (by decide)) _
  | cvte => exact (get _ _).bind fun _ ↦ hp.set (.inl (by decide)) _
  | call loc => exact (hp.push _ _).bind fun _ ↦ hp.jmp _
  | callRel offset => exact (hp.push _ _).bind fun _ ↦ hp.jmpRel _
  | jmp loc => exact hp.jmp _
  | jmpRel offset => exact hp.jmpRel _
  | jRel cond negated offset => exact (holds _ _).bind fun _ ↦ .ite (hp.jmpRel _) (.pure _)
  | jcxzRel offset => exact (get _ _).bind fun _ ↦ .ite (hp.jmpRel _) (.pure _)
  | retNear args => exact hp.retNear _
  | shift op count val z => exact hp.shift (hn.resolve_left id) _ _ _ _
  | shrd count extra dst z => exact hp.shrd (hn.resolve_left id) _ _ _ _
  | shld count extra dst z => exact hp.shld (hn.resolve_left id) _ _ _ _
  | bt bit val z => exact bt (hn.resolve_left id) _ _ _
  | btc bit val z => exact hp.btSet (hn.resolve_left id) (· ^^^ ·) _ _ _
  | bts bit val z => exact hp.btSet (hn.resolve_left id) (· ||| ·) _ _ _
  | btr bit val z => exact hp.btSet (hn.resolve_left id) (fun v m ↦ v &&& ~~~m) _ _ _
  | bsf src dst z => exact hp.bitScan (hn.resolve_left id) lowest _ _ _
  | bsr src dst z => exact hp.bitScan (hn.resolve_left id) highest _ _ _
  | str op z => exact hp.str hn _
  | repStr kind op z => exact Exec.Keeps.get.bind fun _ ↦ hp.repLoop hn _ _ _
  | cmpxchg src dst z =>
    have hfree := hn.resolve_left id
    refine (cmp hfree _ _ _).bind fun _ ↦ (holds _ _).bind fun _ ↦ ?_
    exact .ite (hp.mov (.inr hfree) _ _) (hp.mov (.inr hfree) _ _)
  | xadd src dst z =>
    have hfree := hn.resolve_left id
    exact (hp.xchg (.inr hfree) (.inr hfree) _).bind fun _ ↦ hp.add hfree _ _ _
  | bswap dst => exact (get _ _).bind fun _ ↦ hp.set hn _
  | setCond cond negated val => exact (holds _ _).bind fun _ ↦ hp.set hn _
  | cmov cond negated dst src z => exact (holds _ _).bind fun _ ↦ .ite (hp.mov hn _ _) (.pure _)
  | popf =>
    have hfree := hn.resolve_left id
    exact (hp.pop (.inr hfree) _).bind fun _ ↦ hfree _
  | pushf => exact (hn.resolve_left id _).bind fun _ ↦ hp.push _ _
  | setDf b => exact hn.resolve_left id _
  | sahf =>
    have hfree := hn.resolve_left id
    exact (hfree _).bind fun _ ↦ (hfree _).bind fun _ ↦ hfree _
  | rdtsc => exact (hp.setReg _ _).bind fun _ ↦ hp.setReg _ _
  | cpuid => exact hp.cpuid
  | xorp src dst => exact hp.lanes hn _ _
  | padd src dst => exact hp.lanes hn _ _
  | psub src dst => exact hp.lanes hn _ _
  | psrlq count dst =>
    exact (get _ _).bind fun _ ↦ (get _ _).bind fun _ ↦ .ite (.wrong _) (hp.set hn _)
  | pcmpeqd src dst => exact (get _ _).bind fun _ ↦ (get _ _).bind fun _ ↦ hp.set hn _
  | movq src dst => exact (get _ _).bind fun _ ↦ (get _ _).bind fun _ ↦ hp.set hn _
  | movd src dst => exact (get _ _).bind fun _ ↦ hp.set hn _
  | cvttsd2si dst => exact (get _ _).bind fun _ ↦ hp.set hn _
  | fpu op pops => exact (hp.fpu hn).bind fun _ ↦ .times (hp.setFsw _) _

/-- An early return changes `eip` and `segfault_addr` at most. -/
theorem returned (hp : Steady P) (savedIp : Dword) {o : Outcome Stop Wrong Machine Unit}
    (ho : o.All P) : (returned savedIp o).All P := by
  cases o with
  | ok a m => exact ho
  | stop i m =>
    refine hp.plain (fun cpu ↦ (Emu.finish savedIp cpu i).2) (fun cpu ↦ ?_) m ho
    cases i <;> exact ⟨rfl, rfl, rfl, rfl, rfl, rfl, rfl⟩
  | wrong e => trivial

/-- A step keeps the property, whether the instruction completes or not. -/
theorem step (hp : Steady P) (h : Host) {m : Machine} (hm : P m) (hn : m.Neutral ∨ Free P) :
    (cpuStep32 h m).All P := by
  unfold cpuStep32 cpuStepOn
  cases hrun : Loop.run (restart m.mem m.cpu) (2 ^ 32) (.enter 32 m.cpu.eip) with
  | none => trivial
  | some r =>
    rcases r with ⟨f, byte⟩
    simp only [Front.step]
    cases hdecode : f.decode m.mem m.cpu byte with
    | error i =>
      have hstop : (Outcome.stop i m : Outcome Stop Wrong Machine Unit).All P := hm
      exact hp.returned f.savedIp hstop
    | ok r =>
      rcases r with ⟨insn, c⟩
      have hsome : m.insn = some (insn, ⟨f.oz, c.addr, c.modrm, c.imm⟩, m.withEip c.ip) := by
        rw [Machine.insn, hrun]
        simp only [Option.bind_eq_bind, Option.bind_some, hdecode]
      refine hp.returned f.savedIp (hp.exec (hn.imp_left fun h ↦ h _ _ _ hsome) _ ?_)
      exact hp.setEip (fun _ ↦ c.ip) m hm

end

end Steady

end Isl.Emu
