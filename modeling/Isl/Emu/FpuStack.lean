import Isl.Emu.FlagRun

/-!
The register stack of the x87 unit. `ST(i)` is the element `top + i` of `fp`, where
the sum is not taken modulo 8: which accesses stay inside of `fp`, and what becomes
of a value that was pushed.
-/

namespace Isl.Emu

open Isl.Lib Interp

/-- The element of `fp` that is `i` above `top`, modulo 8. -/
def slot (t : BitVec 3) (i : ℕ) : Fin 8 := ⟨(t.toNat + i) % 8, Nat.mod_lt _ (by decide)⟩

theorem slot_sub_one (t : BitVec 3) (k : ℕ) : slot (t - 1) (k + 1) = slot t k := by
  apply Fin.ext
  have ht := t.isLt
  have h1 : (1 : BitVec 3).toNat = 1 := rfl
  simp only [slot, BitVec.toNat_sub, h1]
  omega

theorem add_one_add (t : BitVec 3) (n : ℕ) :
    t + 1 + BitVec.ofNat 3 n = t + BitVec.ofNat 3 (n + 1) := by
  rw [BitVec.add_assoc, BitVec.add_comm 1, BitVec.ofNat_add]
  rfl

theorem slot_add (t : BitVec 3) (n k : ℕ) : slot (t + BitVec.ofNat 3 n) k = slot t (n + k) := by
  apply Fin.ext
  have ht := t.isLt
  simp only [slot, BitVec.toNat_add, BitVec.toNat_ofNat]
  omega

namespace CpuState

variable (cpu : CpuState)

@[simp] theorem top_setTop (t : BitVec 3) : (cpu.setTop t).top = t := by
  apply BitVec.eq_of_getLsbD_eq
  intro i hi
  simp only [top, setTop, setFsw, BitVec.getLsbD_extractLsb', BitVec.getLsbD_or,
    BitVec.getLsbD_and, BitVec.getLsbD_not, BitVec.getLsbD_shiftLeft, BitVec.getLsbD_setWidth]
  have h7 : (7#16).getLsbD i = true := by
    obtain rfl | rfl | rfl : i = 0 ∨ i = 1 ∨ i = 2 := by omega
    all_goals rfl
  have hlt : 11 + i < 16 := by omega
  have hlt' : i < 16 := by omega
  simp [hi, hlt, hlt', h7]

theorem getLsbD_setC {i : ℕ} (hi : i < 16) (b : Bool) (j : ℕ) :
    (cpu.setC i b).fsw.getLsbD j = if j = i then b else cpu.fsw.getLsbD j := by
  have hone : (1#16 <<< i).getLsbD j = decide (j = i) :=
    (BitVec.getLsbD_twoPow i j).trans (by simp [hi, eq_comm])
  have hge : ¬j < 16 → cpu.fsw.getLsbD j = false := fun h ↦
    BitVec.getLsbD_of_ge _ j (Nat.le_of_not_lt h)
  cases b
  all_goals
    simp only [setC, setFsw, Bool.false_eq_true, if_true, if_false, BitVec.getLsbD_and,
      BitVec.getLsbD_or, BitVec.getLsbD_not, hone]
    by_cases hj : j = i
    · simp [hj]
    · by_cases hlt : j < 16
      · simp [hj, hlt]
      · simp [hj, hge hlt]

theorem top_setC {i : ℕ} (hi : i < 11 ∨ 14 ≤ i ∧ i < 16) (b : Bool) :
    (cpu.setC i b).top = cpu.top := by
  apply BitVec.eq_of_getLsbD_eq
  intro j hj
  have hne : 11 + j ≠ i := by omega
  simp only [top, BitVec.getLsbD_extractLsb', cpu.getLsbD_setC (i := i) (by omega), if_neg hne]

end CpuState

theorem stIndex_of_lt {cpu : CpuState} {i : ℕ} (hi : cpu.top.toNat + i < 8) :
    stIndex cpu i = some (slot cpu.top i) := by
  rw [stIndex, dif_pos hi]
  exact congrArg some (Fin.ext (Nat.mod_eq_of_lt hi).symm)

theorem stIndex_of_le {cpu : CpuState} {i : ℕ} (hi : 8 ≤ cpu.top.toNat + i) :
    stIndex cpu i = none := dif_neg (by omega)

theorem st_of_lt {m : Machine} {i : ℕ} (hi : m.cpu.top.toNat + i < 8) :
    st i m = .ok (m.cpu.fp (slot m.cpu.top i)) m := by
  rw [st, Exec.get_bind_apply, stIndex_of_lt hi]
  rfl

theorem st_of_le {m : Machine} {i : ℕ} (hi : 8 ≤ m.cpu.top.toNat + i) :
    st i m = .wrong .outOfBounds := by
  rw [st, Exec.get_bind_apply, stIndex_of_le hi]
  rfl

theorem setSt_of_lt {m : Machine} {i : ℕ} (hi : m.cpu.top.toNat + i < 8) (f : Float80) :
    setSt i f m = .ok () (m.mapCpu fun cpu ↦
      { cpu with fp := Function.update cpu.fp (slot m.cpu.top i) f }) := by
  rw [setSt, Exec.get_bind_apply, stIndex_of_lt hi]
  rfl

theorem setSt_of_le {m : Machine} {i : ℕ} (hi : 8 ≤ m.cpu.top.toNat + i) (f : Float80) :
    setSt i f m = .wrong .outOfBounds := by
  rw [setSt, Exec.get_bind_apply, stIndex_of_le hi]
  rfl

theorem st_bind_of_le {α : Type} {m : Machine} {i : ℕ} (hi : 8 ≤ m.cpu.top.toNat + i)
    (f : Float80 → Op α) : (st i >>= f) m = .wrong .outOfBounds := by
  rw [Exec.bind_apply, st_of_le hi]

/-- A value that is read first does not save what comes after it. -/
theorem st_bind_outOfBounds {α : Type} {m : Machine} (i : ℕ) {f : Float80 → Op α}
    (hf : ∀ a, f a m = .wrong .outOfBounds) : (st i >>= f) m = .wrong .outOfBounds := by
  by_cases hi : m.cpu.top.toNat + i < 8
  · exact (Exec.bind_ok (st_of_lt hi) f).trans (hf _)
  · exact st_bind_of_le (Nat.le_of_not_lt hi) f

/-- The stack pointer is `t`, and the registers outside of `D` are those of `F`. -/
def Apart (D : List (Fin 8)) (F : Fin 8 → Float80) (t : BitVec 3) (m : Machine) : Prop :=
  m.cpu.top = t ∧ ∀ j ∉ D, m.cpu.fp j = F j

section

variable {D : List (Fin 8)} {F : Fin 8 → Float80} {t : BitVec 3} {i : ℕ}

theorem Apart.start (m : Machine) : Apart [] m.cpu.fp m.cpu.top m := ⟨rfl, fun _ _ ↦ rfl⟩

/-- What changes neither a register of the stack nor `top`. -/
theorem Apart.congr {m m' : Machine} (h : Apart D F t m) (hfp : m'.cpu.fp = m.cpu.fp)
    (htop : m'.cpu.top = m.cpu.top) : Apart D F t m' :=
  ⟨htop.trans h.1, fun j hj ↦ (congrFun hfp j).trans (h.2 j hj)⟩

/-- From a stack as in `Apart`, no access is out of bounds, and an early stop comes
before any change of it. -/
abbrev Safe {α : Type} (D : List (Fin 8)) (F : Fin 8 → Float80) (t : BitVec 3) (x : Op α)
    (Q : α → Machine → Prop) : Prop :=
  x.Triple (Apart D F t) Q (Apart D F t) (· ≠ .outOfBounds)

/-- What is run touches neither the registers of the stack nor `top`. -/
abbrev Still {α : Type} (D : List (Fin 8)) (F : Fin 8 → Float80) (t : BitVec 3) (x : Op α) : Prop :=
  Safe D F t x fun _ ↦ Apart D F t

/-! What the macros are made of. -/

variable {l : Locals} {h : Host}

theorem still_of_same {α : Type} {x : Op α}
    (hs : ∀ m, (x m).All fun m' ↦ m'.cpu.fp = m.cpu.fp ∧ m'.cpu.top = m.cpu.top)
    (hw : ∀ m, x m ≠ .wrong .outOfBounds) : Still D F t x := by
  refine .of_keeps ?_ ?_
  · intro m hm
    exact (hs m).imp fun m' hm' ↦ hm.congr hm'.1 hm'.2
  · rintro m e - he rfl
    exact hw m he

theorem still_pure {α : Type} (a : α) : Still D F t (pure a) := .pure a fun _ hm ↦ hm

theorem still_modify {f : CpuState → CpuState}
    (hf : ∀ cpu, (f cpu).fp = cpu.fp ∧ (f cpu).top = cpu.top) : Still D F t (modifyCpu f) :=
  still_of_same (fun m ↦ hf m.cpu) (fun _ h ↦ nomatch h)

theorem still_setC {i : ℕ} (hi : i < 11 ∨ 14 ≤ i ∧ i < 16) (b : Bool) :
    Still D F t (modifyCpu fun cpu ↦ cpu.setC i b) :=
  still_modify fun cpu ↦ ⟨rfl, cpu.top_setC hi b⟩

theorem still_memWrite (addr : Dword) {w : ℕ} (v : BitVec w) : Still D F t (memWrite addr v) := by
  refine still_of_same ?_ ?_
  · intro m
    simp only [memWrite]
    split <;> exact ⟨rfl, rfl⟩
  · intro m hm
    simp only [memWrite] at hm
    split at hm <;> cases hm

theorem still_get (what : Operand) (w : ℕ) : Still D F t (get l what w) := by
  refine still_of_same ?_ ?_
  · intro m
    rcases get_cases (l := l) what w m with ⟨v, hv⟩ | ⟨addr, ha⟩
    · rw [hv]
      exact ⟨rfl, rfl⟩
    · rw [ha]
      exact ⟨rfl, rfl⟩
  · intro m hm
    rcases get_cases (l := l) what w m with ⟨v, hv⟩ | ⟨addr, ha⟩
    · cases hv.symm.trans hm
    · cases ha.symm.trans hm

theorem still_roundingMode : Still D F t roundingMode :=
  still_of_same (fun _ ↦ ⟨rfl, rfl⟩) (fun _ h ↦ nomatch h)

theorem still_ofOption {α : Type} (o : Option α) : Still D F t (Exec.ofOption .noResult o) := by
  cases o with
  | some a => exact still_pure a
  | none => exact fun _ _ h ↦ nomatch h

theorem still_f80 (x : RoundingMode → Option Float80) : Still D F t (f80 x) :=
  still_roundingMode.bind fun _ ↦ still_ofOption _

theorem still_lt (a b : Float80) : Still D F t (lt a b) :=
  still_roundingMode.bind fun _ ↦ still_ofOption _

theorem still_getReal (z : Real) : Still D F t (getReal h l z) :=
  (still_get _ _).bind fun _ ↦ still_f80 _

theorem still_st (hi : t.toNat + i < 8) : Still D F t (st i) := by
  intro m hm
  rw [st_of_lt (hm.1 ▸ hi)]
  exact hm

theorem still_fCompare {x : Op Float80} (hx : Still D F t x) : Still D F t (fCompare x) := by
  have ht : t.toNat + 0 < 8 := t.isLt
  refine (still_st ht).bind fun _ ↦ hx.bind fun _ ↦ (still_lt _ _).bind fun _ ↦ ?_
  refine (still_setC (.inl (by decide)) _).bind fun _ ↦ ?_
  refine (still_setC (.inl (by decide)) _).bind fun _ ↦ ?_
  refine (still_setC (.inl (by decide)) _).bind fun _ ↦ ?_
  refine (still_st ht).bind fun _ ↦ hx.bind fun _ ↦ ?_
  exact still_setC (.inr (by decide)) _

variable {S : Machine → Prop} {W : Wrong → Prop}

theorem apart_setSt (hi : t.toNat + i < 8) (f : Float80) :
    Exec.Triple (Apart D F t) (setSt i f) (fun _ ↦ Apart (slot t i :: D) F t) S W := by
  rintro m ⟨rfl, hm⟩
  rw [setSt_of_lt hi]
  refine ⟨rfl, fun j hj ↦ ?_⟩
  rw [List.mem_cons, not_or] at hj
  exact (Function.update_of_ne hj.1 f m.cpu.fp).trans (hm j hj.2)

theorem apart_fpush (f : Float80) :
    Exec.Triple (Apart D F t) (fpush f) (fun _ ↦ Apart (slot (t - 1) 0 :: D) F (t - 1)) S W := by
  intro m hm
  have htop : Apart D F (t - 1) (m.mapCpu fun cpu ↦ cpu.setTop (cpu.top - 1)) :=
    ⟨(CpuState.top_setTop _ _).trans (congrArg (· - 1) hm.1), hm.2⟩
  have hlt : (t - 1).toNat + 0 < 8 := (t - 1).isLt
  exact apart_setSt hlt f _ htop

theorem fpush_ok {f : Float80} {a : Unit} {m m' : Machine} (hm : fpush f m = .ok a m') :
    m'.cpu.fp (slot m'.cpu.top 0) = f := by
  let m₁ := m.mapCpu fun cpu ↦ cpu.setTop (cpu.top - 1)
  have hlt : m₁.cpu.top.toNat + 0 < 8 := m₁.cpu.top.isLt
  cases (setSt_of_lt hlt f).symm.trans hm
  exact Function.update_self _ _ _

theorem apart_fpop :
    Exec.Triple (Apart D F t) fpop (fun _ ↦ Apart D F (t + 1)) S W := by
  intro m hm
  exact ⟨(CpuState.top_setTop _ _).trans (congrArg (· + 1) hm.1), hm.2⟩

theorem apart_fpops (n : ℕ) :
    Exec.Triple (Apart D F t) (fpop.times n) (fun _ ↦ Apart D F (t + BitVec.ofNat 3 n)) S W := by
  induction n generalizing t with
  | zero =>
    intro m hm
    exact (BitVec.add_zero t).symm ▸ hm
  | succ n ih =>
    rw [← add_one_add]
    exact apart_fpop.bind fun _ ↦ ih

end

/-! The instructions. -/

namespace FpuOp

variable (h : Host) (l : Locals)

/-- The numbers `i` in the accesses `ST(i)`, which are to `top` as it is before. The
`ST(0)` that a push assigns to after `top--` is not among them. -/
def regs : FpuOp → List ℕ
  | .arith _ src dst => [dst.index l, src.index l]
  | .iarith _ _ | .arithm _ _ | .chs | .abs | .comm _ | .stm _ | .ist _ => [0]
  | .prem | .patan => [0, 1]
  | .ucomi | .com | .st | .xch => [0, stI l]
  | .ld => [stI l]
  | .ild _ | .ldm _ | .ldc _ | .stsw | .stcw | .ldcw => []

/-- The elements of `fp` that are assigned to. -/
def written (t : BitVec 3) : FpuOp → List (Fin 8)
  | .arith _ _ dst => [slot t (dst.index l)]
  | .iarith _ _ | .arithm _ _ | .chs | .abs | .prem => [slot t 0]
  | .st => [slot t (stI l)]
  | .xch => [slot t (stI l), slot t 0]
  | .patan => [slot t 1]
  | .ild _ | .ld | .ldm _ | .ldc _ => [slot (t - 1) 0]
  | .ucomi | .com | .comm _ | .stm _ | .ist _ | .stsw | .stcw | .ldcw => []

def topAfter (t : BitVec 3) : FpuOp → BitVec 3
  | .ild _ | .ld | .ldm _ | .ldc _ => t - 1
  | .patan => t + 1
  | _ => t

/-- The value that a push puts on the stack. -/
def pushed : FpuOp → Option (Op Float80)
  | .ild z => some do
    let v ← get l (.place .memAddr) z
    f80 fun _ ↦ f80FromInt (v.signExtend 64)
  | .ld => some (Emu.st (stI l))
  | .ldm z => some (getReal h l z)
  | .ldc what => some (pure (fpuConsts what))
  | _ => none

/-- Where the value in `ST(k)` is found after `n` values are popped. -/
def popped (n k : ℕ) : Option ℕ := if n ≤ k then some (k - n) else none

/-- Where the value in `ST(k)` is found after the instruction, unless it is overwritten
or popped. -/
def moved (t : BitVec 3) (pops k : ℕ) (op : FpuOp) : Option ℕ :=
  if slot t k ∈ op.written l t then none
  else
    match op with
    | .ild _ | .ld | .ldm _ | .ldc _ => popped pops (k + 1)
    | .patan => popped (pops + 1) k
    | _ => popped pops k

variable {h l} {D : List (Fin 8)} {F : Fin 8 → Float80} {t : BitVec 3} {op : FpuOp}

theorem execFpu_pushed {x : Op Float80} (hx : op.pushed h l = some x) :
    execFpu h l op = x >>= fpush := by
  cases op <;> cases hx
  case ild z => exact (Exec.bind_assoc _ _ _).symm
  all_goals rfl

/-- The spec of an instruction whose registers are all in bounds. -/
theorem safe_execFpu (hin : ∀ i ∈ op.regs l, t.toNat + i < 8) :
    Safe [] F t (execFpu h l op) fun _ ↦ Apart (op.written l t) F (op.topAfter t) := by
  have ht : t.toNat + 0 < 8 := t.isLt
  cases op with
  | arith op src dst =>
    have hd := hin (dst.index l) (by simp [regs])
    have hs := hin (src.index l) (by simp [regs])
    refine (still_st hd).bind fun _ ↦ (still_st hs).bind fun _ ↦ ?_
    exact (still_f80 _).bind fun _ ↦ apart_setSt hd _
  | iarith op z =>
    refine (still_st ht).bind fun _ ↦ (still_get _ _).bind fun _ ↦ ?_
    exact (still_f80 _).bind fun _ ↦ (still_f80 _).bind fun _ ↦ apart_setSt ht _
  | arithm op z =>
    refine (still_st ht).bind fun _ ↦ (still_getReal _).bind fun _ ↦ ?_
    exact (still_f80 _).bind fun _ ↦ apart_setSt ht _
  | chs => exact (still_st ht).bind fun _ ↦ apart_setSt ht _
  | abs => exact (still_st ht).bind fun _ ↦ apart_setSt ht _
  | prem =>
    have h1 := hin 1 (by simp [regs])
    refine (still_st ht).bind fun _ ↦ (still_st h1).bind fun _ ↦ ?_
    exact (still_f80 _).bind fun _ ↦ apart_setSt ht _
  | ucomi =>
    have hi := hin (stI l) (by simp [regs])
    refine (still_st ht).bind fun _ ↦ (still_st hi).bind fun _ ↦ ?_
    refine .bind (still_modify fun _ ↦ ⟨rfl, rfl⟩) fun _ ↦ ?_
    refine (still_st ht).bind fun _ ↦ (still_st hi).bind fun _ ↦ (still_lt _ _).bind fun _ ↦ ?_
    refine .bind (still_modify fun _ ↦ ⟨rfl, rfl⟩) fun _ ↦ ?_
    exact still_modify fun _ ↦ ⟨rfl, rfl⟩
  | com => exact still_fCompare (still_st (hin (stI l) (by simp [regs])))
  | comm z => exact still_fCompare (still_getReal z)
  | ild z => exact (still_get _ _).bind fun _ ↦ (still_f80 _).bind fun _ ↦ apart_fpush _
  | ld =>
    have hi := hin (stI l) (by simp [regs])
    exact (still_st hi).bind fun _ ↦ apart_fpush _
  | ldm z => exact (still_getReal z).bind fun _ ↦ apart_fpush _
  | ldc what => exact apart_fpush _
  | stm z =>
    refine (still_st ht).bind fun _ ↦ still_roundingMode.bind fun _ ↦ ?_
    exact still_memWrite _ _
  | ist z =>
    refine (still_st ht).bind fun _ ↦ still_roundingMode.bind fun _ ↦ ?_
    exact still_memWrite _ _
  | st =>
    have hi := hin (stI l) (by simp [regs])
    exact (still_st ht).bind fun _ ↦ apart_setSt hi _
  | xch =>
    have hi := hin (stI l) (by simp [regs])
    refine (still_st ht).bind fun _ ↦ (still_st hi).bind fun _ ↦ ?_
    exact (apart_setSt ht _).bind fun _ ↦ apart_setSt hi _
  | stsw => exact .get_bind fun m _ ↦ still_modify fun _ ↦ ⟨rfl, rfl⟩
  | stcw => exact .get_bind fun m _ ↦ still_memWrite _ _
  | ldcw => exact (still_get _ _).bind fun _ ↦ still_modify fun _ ↦ ⟨rfl, rfl⟩
  | patan =>
    have h1 := hin 1 (by simp [regs])
    refine (still_st h1).bind fun _ ↦ (still_st ht).bind fun _ ↦ still_roundingMode.bind fun _ ↦ ?_
    exact (still_f80 _).bind fun _ ↦ (apart_setSt h1 _).bind fun _ ↦ apart_fpop

/-- One that names a register out of bounds comes to it before anything else can fail. -/
theorem execFpu_outOfBounds {m : Machine} {i : ℕ} (hi : i ∈ op.regs l)
    (hout : 8 ≤ m.cpu.top.toNat + i) : execFpu h l op m = .wrong .outOfBounds := by
  have ht : ¬8 ≤ m.cpu.top.toNat + 0 := Nat.not_le_of_lt m.cpu.top.isLt
  have hpair {j k : ℕ} (hjk : i ∈ [j, k]) : i = j ∨ i = k := by
    simpa using hjk
  cases op with
  | arith op src dst =>
    rcases hpair hi with rfl | rfl
    · exact st_bind_of_le hout _
    · exact st_bind_outOfBounds _ fun _ ↦ st_bind_of_le hout _
  | prem =>
    rcases hpair hi with rfl | rfl
    · exact absurd hout ht
    · exact st_bind_outOfBounds _ fun _ ↦ st_bind_of_le hout _
  | patan =>
    rcases hpair hi with rfl | rfl
    · exact absurd hout ht
    · exact st_bind_of_le hout _
  | ucomi =>
    rcases hpair hi with rfl | rfl
    · exact absurd hout ht
    · exact st_bind_outOfBounds _ fun _ ↦ st_bind_of_le hout _
  | com =>
    rcases hpair hi with rfl | rfl
    · exact absurd hout ht
    · exact st_bind_outOfBounds _ fun _ ↦ st_bind_of_le hout _
  | st =>
    rcases hpair hi with rfl | rfl
    · exact absurd hout ht
    · exact st_bind_outOfBounds _ fun _ ↦ setSt_of_le hout _
  | xch =>
    rcases hpair hi with rfl | rfl
    · exact absurd hout ht
    · exact st_bind_outOfBounds _ fun _ ↦ st_bind_of_le hout _
  | ld =>
    obtain rfl := List.mem_singleton.mp hi
    exact st_bind_of_le hout _
  | ild z | ldm z | ldc what | stsw | stcw | ldcw => cases hi
  | _ =>
    obtain rfl := List.mem_singleton.mp hi
    exact absurd hout ht

theorem slot_popped {n k k' : ℕ} (hk : popped n k = some k') :
    slot (t + BitVec.ofNat 3 n) k' = slot t k := by
  rw [popped] at hk
  split at hk
  · cases hk
    rw [slot_add, Nat.add_sub_of_le ‹_›]
  · cases hk

theorem moved_eq_some {pops k k' : ℕ} (hk : op.moved l t pops k = some k') :
    slot t k ∉ op.written l t ∧ slot (op.topAfter t + BitVec.ofNat 3 pops) k' = slot t k := by
  rw [moved.eq_def] at hk
  split at hk
  · cases hk
  · refine ⟨‹_›, ?_⟩
    cases op with
    | ild z | ld | ldm z | ldc what => exact (slot_popped hk).trans (slot_sub_one t k)
    | patan =>
      rw [topAfter, add_one_add]
      exact slot_popped hk
    | _ => exact slot_popped hk

/-- The instruction with the `FPOP` after it. -/
theorem safe_fpu (hin : ∀ i ∈ op.regs l, t.toNat + i < 8) (pops : ℕ) :
    Safe [] F t (exec h l (.fpu op pops)) fun _ ↦
      Apart (op.written l t) F (op.topAfter t + BitVec.ofNat 3 pops) :=
  (safe_execFpu hin).bind fun _ ↦ apart_fpops pops

theorem fpu_wrong_iff {m : Machine} (pops : ℕ) :
    (exec h l (.fpu op pops) m).wrong? = some .outOfBounds ↔
      ¬∀ i ∈ op.regs l, m.cpu.top.toNat + i < 8 := by
  constructor
  · intro hw hin
    have hsafe := safe_fpu (h := h) hin pops m (Apart.start m)
    revert hw hsafe
    cases exec h l (.fpu op pops) m with
    | wrong e =>
      intro hw hne
      exact hne (Option.some.inj hw)
    | _ => exact fun hw ↦ nomatch hw
  · intro hout
    simp only [not_forall, Nat.not_lt] at hout
    obtain ⟨i, hi, hle⟩ := hout
    have hbind : exec h l (.fpu op pops) m = .wrong .outOfBounds := by
      rw [exec, Exec.bind_apply, execFpu_outOfBounds hi hle]
    rw [hbind]
    rfl

end FpuOp

/-! Steps of the processor. -/

section

variable {h : Host} {m m' w : Machine} {l : Locals} {insn : Insn} {op : FpuOp} {pops : ℕ}

theorem cpuStep32_of_no_insn (hi : m.insn = none) (hn : (cpuStep32 h m).state? = some m') :
    m'.cpu.fp = m.cpu.fp ∧ m'.cpu.top = m.cpu.top := by
  unfold Machine.insn at hi
  rw [cpuStep32, cpuStepOn] at hn
  cases hrun : Loop.run (restart m.mem m.cpu) (2 ^ 32) (.enter 32 m.cpu.eip) with
  | none =>
    rw [hrun] at hn
    cases hn
  | some r =>
    rcases r with ⟨f, byte⟩
    rw [hrun] at hi hn
    simp only [Front.step] at hn
    cases hd : f.decode m.mem m.cpu byte with
    | error i =>
      rw [hd] at hn
      cases i <;> cases hn <;> exact ⟨rfl, rfl⟩
    | ok r =>
      simp only [Option.bind_eq_bind, Option.bind_some, hd] at hi
      cases hi

theorem wrong_returned (savedIp : Dword) (o : Outcome Stop Wrong Machine Unit) :
    (returned savedIp o).wrong? = o.wrong? := by
  cases o <;> rfl

theorem fpu_step_wrong_iff (hi : m.insn = some (.fpu op pops, l, w)) :
    (cpuStep32 h m).wrong? = some .outOfBounds ↔ ¬∀ i ∈ op.regs l, m.cpu.top.toNat + i < 8 := by
  obtain ⟨⟨ip, rfl⟩, savedIp, hs⟩ := cpuStep32_of_insn (h := h) hi
  rw [hs, wrong_returned]
  exact FpuOp.fpu_wrong_iff pops

/-- What a step with an instruction of the x87 unit leaves of the stack. -/
theorem fpu_step_apart (hi : m.insn = some (.fpu op pops, l, w)) (hn : m.next h = some m') :
    if (cpuStep32 h m).isOk
    then Apart (op.written l m.cpu.top) m.cpu.fp (op.topAfter m.cpu.top + BitVec.ofNat 3 pops) m'
    else Apart [] m.cpu.fp m.cpu.top m' := by
  have hin : ∀ i ∈ op.regs l, m.cpu.top.toNat + i < 8 := by
    by_contra hout
    have hw := (fpu_step_wrong_iff (h := h) hi).mpr hout
    rw [Machine.next] at hn
    revert hw hn
    cases cpuStep32 h m with
    | wrong e => exact fun hn ↦ nomatch hn
    | _ => exact fun _ hw ↦ nomatch hw
  obtain ⟨⟨ip, rfl⟩, savedIp, hs⟩ := cpuStep32_of_insn (h := h) hi
  have hsafe := FpuOp.safe_fpu (h := h) hin pops (m.withEip ip) (Apart.start m)
  rw [Machine.next, hs] at hn
  rw [hs]
  revert hsafe hn
  cases exec h l (.fpu op pops) (m.withEip ip) with
  | ok a u =>
    intro hn hsafe
    cases hn
    exact hsafe
  | stop i u =>
    intro hn hsafe
    cases i <;> cases hn <;> exact hsafe.congr rfl rfl
  | wrong e => exact fun hn ↦ nomatch hn

end

/-! Sequences of instructions. -/

/-- One instruction of a sequence, with what comes before it: anything else that leaves
the stack as it is. -/
structure Turn where
  host : Host
  before : Machine → Machine
  keeps : ∀ m, (before m).cpu.fp = m.cpu.fp ∧ (before m).cpu.top = m.cpu.top

namespace Turn

def step (m : Machine) (t : Turn) : Option Machine := (t.before m).next t.host

/-- Where the value in `ST(k)` is found after the step, if it is neither popped nor
overwritten. Only an instruction that is completed has an effect on it. -/
def moved (m : Machine) (t : Turn) (k : ℕ) : Option ℕ :=
  match (t.before m).insn with
  | some (.fpu op pops, l, _) =>
    if (cpuStep32 t.host (t.before m)).isOk then op.moved l m.cpu.top pops k else some k
  | some _ => none
  | none => some k

/-- The step completes an instruction that pushes `v`. -/
def Pushes (m : Machine) (t : Turn) (v : Float80) : Prop :=
  (cpuStep32 t.host (t.before m)).isOk ∧ ∃ op l w x w',
    (t.before m).insn = some (.fpu op 0, l, w) ∧ op.pushed t.host l = some x ∧ x w = .ok v w'

/-- The registers that the next instruction names are in bounds. -/
def InBounds (m : Machine) (t : Turn) : Prop :=
  ∀ op pops l w, (t.before m).insn = some (.fpu op pops, l, w) →
    ∀ i ∈ op.regs l, m.cpu.top.toNat + i < 8

end Turn

/-- After the steps from `m` on, the value `v` has been pushed `k` pushes ago, less those
whose values are popped again, and neither popped nor overwritten since. -/
inductive Pushed (m : Machine) : List Turn → ℕ → Float80 → Prop
  | push {ts : List Turn} {t : Turn} {u : Machine} {v : Float80} :
      Run.exec Turn.step m ts = some u → t.Pushes u v → Pushed m (ts ++ [t]) 0 v
  | keep {ts : List Turn} {t : Turn} {u : Machine} {k k' : ℕ} {v : Float80} :
      Pushed m ts k v → Run.exec Turn.step m ts = some u → t.moved u k = some k' →
      Pushed m (ts ++ [t]) k' v

/-- In all of the sequence `ST(i)` is the element `top + i` modulo 8 of `fp`, and what
was pushed is read there. -/
def StackLike (m : Machine) (ts : List Turn) : Prop :=
  ∀ pre t u, pre ++ [t] <+: ts → Run.exec Turn.step m pre = some u →
    ∀ op pops l w, (t.before u).insn = some (.fpu op pops, l, w) →
      (cpuStep32 t.host (t.before u)).wrong? ≠ some .outOfBounds ∧
      ∀ i ∈ op.regs l, stIndex w.cpu i = some (slot w.cpu.top i) ∧
        ∀ v, Pushed m pre i v → st i w = .ok v w

section

variable {m u u' w : Machine} {t : Turn} {ts : List Turn} {k k' : ℕ} {v : Float80}
  {op : FpuOp} {pops : ℕ} {l : Locals}

theorem Turn.top_insn {insn : Insn} (hi : (t.before m).insn = some (insn, l, w)) :
    w.cpu.fp = m.cpu.fp ∧ w.cpu.top = m.cpu.top := by
  obtain ⟨⟨ip, rfl⟩, -⟩ := cpuStep32_of_insn (h := t.host) hi
  exact t.keeps m

theorem Turn.pushes_read (hp : t.Pushes m v) (hs : t.step m = some u) :
    u.cpu.fp (slot u.cpu.top 0) = v := by
  obtain ⟨hok, op, l, w, x, w', hi, hx, hw⟩ := hp
  obtain ⟨-, savedIp, hstep⟩ := cpuStep32_of_insn (h := t.host) hi
  rw [Turn.step, Machine.next, hstep] at hs
  rw [hstep] at hok
  revert hok hs
  cases hr : exec t.host l (.fpu op 0) w with
  | ok a u₁ =>
    intro _ hs
    cases hs
    obtain ⟨a, u₂, hop, hpop⟩ := Exec.bind_eq_ok.mp hr
    cases hpop
    rw [FpuOp.execFpu_pushed hx, Exec.bind_ok hw] at hop
    exact fpush_ok hop
  | _ => exact fun hok ↦ nomatch hok

theorem Turn.moved_read (hk : t.moved m k = some k') (hs : t.step m = some u) :
    u.cpu.fp (slot u.cpu.top k') = m.cpu.fp (slot m.cpu.top k) := by
  obtain ⟨hfp, htop⟩ := t.keeps m
  rw [Turn.moved] at hk
  split at hk
  · rename_i op pops l w hi
    have happ := fpu_step_apart hi hs
    rw [hfp, htop] at happ
    split at hk
    · rw [if_pos ‹_›] at happ
      obtain ⟨hnot, hslot⟩ := FpuOp.moved_eq_some hk
      rw [happ.1, hslot]
      exact happ.2 _ hnot
    · rw [if_neg ‹_›] at happ
      cases hk
      rw [happ.1]
      exact happ.2 _ List.not_mem_nil
  · cases hk
  · cases hk
    obtain ⟨hfp', htop'⟩ := cpuStep32_of_no_insn ‹_› hs
    rw [hfp', htop', hfp, htop]

/-- The element of `fp` at which a pushed value is kept. -/
theorem Pushed.entry (hp : Pushed m ts k v) (hu : Run.exec Turn.step m ts = some u) :
    u.cpu.fp (slot u.cpu.top k) = v := by
  induction hp generalizing u with
  | push he hpush =>
    obtain ⟨u', hu', hs⟩ := Run.exec_concat_eq_some.mp hu
    cases he.symm.trans hu'
    exact Turn.pushes_read hpush hs
  | keep hp he hk ih =>
    obtain ⟨u', hu', hs⟩ := Run.exec_concat_eq_some.mp hu
    cases he.symm.trans hu'
    exact (Turn.moved_read hk hs).trans (ih he)

/-- A sequence works on `fp` as on a stack exactly if it names no register whose number
and `top` add up to more than 7. -/
theorem stackLike_iff (m : Machine) (ts : List Turn) :
    StackLike m ts ↔ Run.Guarded Turn.step Turn.InBounds m ts := by
  rw [Run.guarded_iff]
  constructor
  · intro hs pre t u hpre hu op pops l w hi
    have hw := (hs pre t u hpre hu op pops l w hi).1
    rw [Ne, fpu_step_wrong_iff hi, not_not, (t.keeps u).2] at hw
    exact hw
  · intro hg pre t u hpre hu op pops l w hi
    have hin := hg pre t u hpre hu op pops l w hi
    obtain ⟨hfp, htop⟩ := Turn.top_insn hi
    refine ⟨?_, fun i hmem ↦ ⟨?_, fun v hv ↦ ?_⟩⟩
    · rw [Ne, fpu_step_wrong_iff hi, not_not, (t.keeps u).2]
      exact hin
    · exact stIndex_of_lt (htop ▸ hin i hmem)
    · have hlt : w.cpu.top.toNat + i < 8 := htop ▸ hin i hmem
      rw [st_of_lt hlt, hfp, htop, hv.entry hu]

end

/-- A machine with 1 in `top` that is to run `fld1`, `fldz` and `fxch st(1)`. -/
def fldFldFxch : Machine where
  cpu := CpuState.zero.setTop 1
  mem := ⟨fun _ ↦ .readWrite, fun a ↦ [0xd9, 0xe8, 0xd9, 0xee, 0xd9, 0xc9].getD a.toNat 0⟩
  rounding := .roundToNearest

def Turn.plain : Turn := ⟨Host.zero, id, fun _ ↦ ⟨rfl, rfl⟩⟩

/-- The 1 that was pushed one push ago is in `fp[0]`, and the exchange reads `fp[8]`. -/
theorem not_stackLike : ¬∀ m ts, StackLike m ts := by
  intro hall
  have hrun : (Run.exec Turn.step fldFldFxch [.plain, .plain]).map (fun u ↦
      (u.insn.map Prod.fst, (cpuStep32 Host.zero u).wrong?)) =
      some (some (.fpu .xch 0), some .outOfBounds) := by
    decide +kernel
  obtain ⟨u, hu, heq⟩ := Option.map_eq_some_iff.mp hrun
  obtain ⟨hinsn, hwrong⟩ := Prod.mk.inj heq
  obtain ⟨⟨insn, l, w⟩, hi, rfl⟩ := Option.map_eq_some_iff.mp hinsn
  have hs := hall fldFldFxch [.plain, .plain, .plain] [.plain, .plain] .plain u ⟨[], rfl⟩ hu
  exact (hs _ _ _ _ hi).1 hwrong

end Isl.Emu
