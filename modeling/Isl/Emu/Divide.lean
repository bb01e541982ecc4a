import Isl.Emu.Multiply
import Isl.Lib.Truncated

/-!
Division. The macros test for a divisor of zero alone, read the divisor without its sign,
and of bytes divide `DL:AL` and leave the remainder in `DL`.
-/

namespace Isl.Emu

open Isl.Lib Interp

/-! The architecture. -/

/-- `AL`, `AX` or `EAX`. -/
def CpuState.quotient (z : ℕ) (cpu : CpuState) : BitVec z := (cpu.regs .eax).setWidth z

/-- `AH`, `DX` or `EDX`. -/
def CpuState.remainder (z : ℕ) (cpu : CpuState) : BitVec z :=
  if z = 8 then (cpu.regs .eax >>> 8).setWidth z else (cpu.regs .edx).setWidth z

namespace Reading

variable {z : ℕ}

def divInsn (val : Place) (z : ℕ) : Reading → Insn
  | .uint => .div val z
  | .sint => .idiv val z

/-- An interrupt with the registers as they were, for a divisor of zero and a quotient that
does not fit, and the truncated quotient with its remainder otherwise. -/
def DivRight (h : Host) (l : Locals) (val : Place) (m : Machine) (v : BitVec z) (op : Reading) :
    Prop :=
  if v = 0 ∨ ¬op.Holds z ((op.value (m.cpu.wide z)).tdiv (op.value v)) then
    ∃ m', exec h l (op.divInsn val z) m = .stop .div m' ∧ m'.cpu.regs = m.cpu.regs
  else ∃ m', exec h l (op.divInsn val z) m = .ok () m' ∧
    Truncated.Divides (op.value (m.cpu.wide z)) (op.value v) (op.value (m'.cpu.quotient z))
      (op.value (m'.cpu.remainder z)) ∧ WideFrame z m m'

/-- When the macro does what the architecture says. -/
def DivMeets (v : BitVec z) (cpu : CpuState) (op : Reading) : Prop :=
  let d := op.value (cpu.wide z)
  let w := op.value v
  v = 0 ∨ op.Holds z (d.tdiv w) ∧
    -- `AH` is the remainder already, and `DL` is the same
    (z = 8 → (cpu.regs .edx).setWidth z = cpu.remainder z ∧ |op.value (cpu.remainder z)| < |w| ∧
      w ∣ d - op.value (cpu.remainder z)) ∧
    (w < 0 → |d| < |w| ∨ w = -2 ^ (z - 1) ∧ d.tdiv w = -2 ^ (z - 1))

end Reading

/-! Words and the numbers that they are. -/

section

variable {z : ℕ}

def halves (lo hi : BitVec z) : BitVec (2 * z) := lo.setWidth (2 * z) ||| hi.setWidth (2 * z) <<< z

theorem value_halves (hz : z = 8 ∨ z = 16 ∨ z = 32) (op : Reading) (lo hi : BitVec z) :
    op.value (halves lo hi) = op.value hi * 2 ^ z + lo.toNat := by
  have hlo := lo.isLt
  have hhi := hi.isLt
  have hnat : (halves lo hi).toNat = hi.toNat * 2 ^ z + lo.toNat := by
    have hdouble : 2 ^ z ≤ 2 ^ (2 * z) := Nat.pow_le_pow_right (by decide) (by omega)
    have hshift : hi.toNat <<< z < 2 ^ (2 * z) := by
      rw [Nat.shiftLeft_eq, Nat.two_mul, pow_add]
      exact Nat.mul_lt_mul_of_pos_right hhi (Nat.two_pow_pos z)
    rw [halves, BitVec.toNat_or, BitVec.toNat_shiftLeft, BitVec.toNat_setWidth, BitVec.toNat_setWidth,
      Nat.mod_eq_of_lt (hlo.trans_le hdouble), Nat.mod_eq_of_lt (hhi.trans_le hdouble),
      Nat.mod_eq_of_lt hshift, Nat.or_comm, ← Nat.shiftLeft_add_eq_or_of_lt hlo, Nat.shiftLeft_eq]
  cases op with
  | uint =>
    rw [Reading.value, Reading.value, hnat]
    push_cast
    rfl
  | sint =>
    simp only [Reading.value, BitVec.toInt_eq_toNat_cond, hnat]
    rcases hz with rfl | rfl | rfl <;> split <;> split <;> push_cast <;> omega

theorem wide_eq (hz : z = 8 ∨ z = 16 ∨ z = 32) (cpu : CpuState) :
    cpu.wide z = halves (cpu.quotient z) (cpu.remainder z) := by
  by_cases h8 : z = 8
  · subst h8
    rw [CpuState.wide, if_pos rfl, halves, CpuState.quotient, CpuState.remainder, if_pos rfl]
    apply BitVec.eq_of_getLsbD_eq
    intro i hi
    simp only [BitVec.getLsbD_or, BitVec.getLsbD_setWidth, BitVec.getLsbD_shiftLeft,
      BitVec.getLsbD_ushiftRight, hi, decide_true, Bool.true_and]
    by_cases hlow : i < 8
    · simp [hlow]
    · simp [hlow, show i - 8 < 16 by omega, show i - 8 < 8 by omega, show 8 + (i - 8) = i by omega]
  · rw [CpuState.wide, if_neg h8, CpuState.remainder, if_neg h8]
    rfl

theorem ofInt_eq_iff (x y : ℤ) : BitVec.ofInt z x = BitVec.ofInt z y ↔ (2 ^ z : ℤ) ∣ x - y := by
  have hpos : ((2 ^ z : ℕ) : ℤ) ≠ 0 := by simp
  have hcast : ((2 ^ z : ℕ) : ℤ) = 2 ^ z := by push_cast; rfl
  rw [← BitVec.toNat_inj, BitVec.toNat_ofInt, BitVec.toNat_ofInt, ← Int.ofNat_inj,
    Int.toNat_of_nonneg (Int.emod_nonneg _ hpos), Int.toNat_of_nonneg (Int.emod_nonneg _ hpos),
    Int.emod_eq_emod_iff_emod_sub_eq_zero, Int.dvd_iff_emod_eq_zero, hcast]

theorem Reading.value_eq_iff (op : Reading) (hz : 0 < z) {q : ℤ} (hq : op.Holds z q)
    (x : BitVec z) : op.value x = q ↔ x = BitVec.ofInt z q := by
  have hval : op.value (BitVec.ofInt z q) = q := by
    cases op with
    | uint =>
      obtain ⟨n, rfl⟩ := Int.eq_ofNat_of_zero_le hq.1
      have hlt : n < 2 ^ z := by exact_mod_cast hq.2
      rw [value, BitVec.ofInt_natCast, BitVec.toNat_ofNat, Nat.mod_eq_of_lt hlt]
    | sint => rw [value, BitVec.toInt_ofInt, (bmod_eq_iff hz).mpr hq]
  rw [← op.value_inj, hval]

/-- A number of double width, cut to a word. -/
theorem cut_eq (x : BitVec (2 * z)) (op : Reading) :
    x.setWidth z = BitVec.ofInt z (op.value x) := by
  cases op with
  | uint => rw [Reading.value, BitVec.ofInt_natCast, BitVec.ofNat_toNat]
  | sint => exact (BitVec.signExtend_eq_setWidth_of_le x (by omega)).symm

/-- The divisor without its sign. -/
theorem value_divisor (hz : 0 < z) (op : Reading) (v : BitVec z) :
    op.value (v.setWidth (2 * z)) = v.toNat := by
  have hv := v.isLt
  have hdouble : 2 * 2 ^ z ≤ 2 ^ (2 * z) := by
    rw [← Nat.pow_succ']
    exact Nat.pow_le_pow_right (by decide) (by omega)
  have hnat : (v.setWidth (2 * z)).toNat = v.toNat := by
    rw [BitVec.toNat_setWidth, Nat.mod_eq_of_lt (by omega)]
  cases op with
  | uint => rw [Reading.value, hnat]
  | sint => rw [Reading.value, BitVec.toInt_eq_toNat_of_lt (by omega), hnat]

namespace Reading

def rem {n : ℕ} (x y : BitVec n) : Reading → BitVec n
  | .uint => x.umod y
  | .sint => x.srem y

def quot {n : ℕ} (x y : BitVec n) : Reading → BitVec n
  | .uint => x.udiv y
  | .sint => x.sdiv y

variable (op : Reading) (x : BitVec (2 * z)) (v : BitVec z)

theorem rem_word (hz : 0 < z) : (op.rem x (v.setWidth (2 * z))).setWidth z =
    BitVec.ofInt z ((op.value x).tmod v.toNat) := by
  rw [cut_eq _ op, ← value_divisor hz op v]
  cases op with
  | uint => rw [rem, value, value, value, BitVec.umod_eq, BitVec.toNat_umod, Int.ofNat_tmod]
  | sint => rw [rem, value, value, value, BitVec.toInt_srem]

theorem quot_word (hz : 0 < z) : (op.quot x (v.setWidth (2 * z))).setWidth z =
    BitVec.ofInt z ((op.value x).tdiv v.toNat) := by
  rw [cut_eq _ op, ← value_divisor hz op v]
  cases op with
  | uint => rw [quot, value, value, value, BitVec.udiv_eq, BitVec.toNat_udiv, Int.ofNat_tdiv]
  | sint =>
    rw [quot, value, value, value, BitVec.toInt_sdiv, ofInt_eq_iff]
    have hdvd : (2 ^ z : ℤ) ∣ ((2 ^ (2 * z) : ℕ) : ℤ) := by
      push_cast
      exact pow_dvd_pow 2 (by omega)
    exact hdvd.trans Int.dvd_bmod_sub_self

end Reading

end

/-! The macro. -/

section

variable {h : Host} {l : Locals} {z : ℕ} {val : Place} {slot : Slot} {m m' : Machine}
  {v : BitVec z} {op : Reading}

/-- What the macro divides. -/
def CpuState.dividend (z : ℕ) (cpu : CpuState) : BitVec (2 * z) :=
  halves (cpu.quotient z) ((cpu.regs .edx).setWidth z)

/-- After the first division. -/
def remainderSet (op : Reading) (v : BitVec z) (m : Machine) : Machine :=
  m.mapCpu fun cpu ↦ cpu.setNamed .edx
    (BitVec.ofInt z ((op.value (cpu.dividend z)).tmod v.toNat))

theorem divide_zero (hv : get l val z m = .ok 0 m) :
    exec h l (op.divInsn val z) m = .stop .div m := by
  cases op <;> exact Exec.bind_eq hv rfl

theorem set_named (l : Locals) (r : Reg32) (x : BitVec z) (m : Machine) :
    set l (.reg r) x m = .ok () { m with cpu := m.cpu.setNamed r x } := rfl

/-- The divisor is read once more for the quotient. -/
theorem divide_rereads (rem quot : {n : ℕ} → BitVec n → BitVec n → BitVec n) {m₁ : Machine}
    {v' : BitVec z} (hv : get l val z m = .ok v m) (hne : v ≠ 0)
    (hset : set l (.reg .edx) ((rem (m.cpu.dividend z) (v.setWidth (2 * z))).setWidth z) m = .ok () m₁)
    (hv' : get l val z m₁ = .ok v' m₁) : divide l rem quot val z m =
      (if v' = 0 then Exec.wrong .divideByZero
      else set l (.reg .eax) ((quot (m.cpu.dividend z) (v'.setWidth (2 * z))).setWidth z)) m₁ := by
  refine Exec.bind_eq hv ((congrFun (if_neg hne) m).trans ?_)
  refine Exec.bind_eq rfl (Exec.bind_eq rfl (Exec.bind_eq hv ((congrFun (if_neg hne) m).trans ?_)))
  exact Exec.bind_eq hset (Exec.bind_eq hv' rfl)

theorem divide_ends (hz : 0 < z) (hv : get l val z m = .ok v m) (hne : v ≠ 0) {v' : BitVec z}
    (hv' : get l val z (remainderSet op v m) = .ok v' (remainderSet op v m)) :
    exec h l (op.divInsn val z) m =
      if v' = 0 then .wrong .divideByZero
      else .ok () ((remainderSet op v m).mapCpu fun cpu ↦ cpu.setNamed .eax
        (BitVec.ofInt z ((op.value (m.cpu.dividend z)).tdiv v'.toNat))) := by
  have hdivide : exec h l (op.divInsn val z) m = divide l op.rem op.quot val z m := by
    cases op <;> rfl
  have hset : set l (.reg .edx) ((op.rem (m.cpu.dividend z) (v.setWidth (2 * z))).setWidth z) m =
      .ok () (remainderSet op v m) := by
    rw [op.rem_word _ v hz, set_named, remainderSet, Machine.mapCpu]
  refine hdivide.trans ((divide_rereads op.rem op.quot hv hne hset hv').trans ?_)
  by_cases hzero : v' = 0
  · rw [if_pos hzero, if_pos hzero]
    rfl
  · rw [if_neg hzero, if_neg hzero, ← op.quot_word _ v' hz]
    rfl

theorem slot_offset (hval : val.slot l z = some slot) {r : Reg32} {k : ℕ} (hs : slot = .bits r k) :
    k = 0 ∨ z = 8 ∧ k = 8 := by
  have hreg (p : Regptr) (hp : p.slot z = .bits r k) : k = 0 ∨ z = 8 ∧ k = 8 := by
    rw [Regptr.slot] at hp
    split at hp
    · next h8 =>
      cases hp
      split
      · exact .inr ⟨h8, rfl⟩
      · exact .inl rfl
    · split at hp <;> cases hp <;> exact .inl rfl
  subst hs
  cases val with
  | modrmReg => exact hreg _ (Option.some.inj hval)
  | modrmVal =>
    have hslot := Option.some.inj hval
    split at hslot
    · exact hreg _ hslot
    · cases hslot
  | reg r =>
    cases hval
    exact .inl rfl
  | _ => cases hval

/-- The divisor has changed only where it is `reg_d`. -/
theorem reread (op : Reading) (hz : z = 8 ∨ z = 16 ∨ z = 32) (hval : val.slot l z = some slot)
    (hv : get l val z m = .ok v m) : ∃ v' : BitVec z,
    get l val z (remainderSet op v m) = .ok v' (remainderSet op v m) ∧
      (v' = v ∨ slot = .bits .edx 0 ∧ v = (m.cpu.regs .edx).setWidth z ∧
        v' = BitVec.ofInt z ((op.value (m.cpu.dividend z)).tmod v.toNat)) := by
  have hvalue := value_of_get (by omega) hval hv
  have hread {v' : BitVec z} (h : slot.value (remainderSet op v m) z = some v') :
      get l val z (remainderSet op v m) = .ok v' (remainderSet op v m) := by
    rw [get_slot hval (by omega), h]
  cases slot with
  | memory addr => exact ⟨v, hread hvalue, .inl rfl⟩
  | bits r k =>
    by_cases hd : r = .edx
    · subst hd
      rcases slot_offset hval rfl with rfl | ⟨rfl, rfl⟩
      · refine ⟨_, hread ?_, .inr ⟨rfl, ?_, rfl⟩⟩
        · simp only [Slot.value, remainderSet, Machine.mapCpu, CpuState.setNamed, CpuState.setReg,
            Function.update_self]
          rw [insertBits_ushiftRight _ (by omega)]
        · simpa [Slot.value] using hvalue.symm
      · refine ⟨v, hread ?_, .inl rfl⟩
        rw [← hvalue]
        simp only [Slot.value, remainderSet, Machine.mapCpu, CpuState.setNamed, CpuState.setReg,
          Function.update_self, Option.some.injEq]
        apply BitVec.eq_of_getLsbD_eq
        intro i hi
        rw [BitVec.getLsbD_setWidth, BitVec.getLsbD_setWidth, BitVec.getLsbD_ushiftRight,
          BitVec.getLsbD_ushiftRight, getLsbD_insertBits _ _ _ (by omega), if_neg (by omega)]
    · refine ⟨v, hread ?_, .inl rfl⟩
      rw [← hvalue]
      simp only [Slot.value, remainderSet, Machine.mapCpu, CpuState.setNamed, CpuState.setReg,
        Function.update_of_ne hd]

end

/-! The numbers that the macro divides by. -/

section

variable {z : ℕ} {op : Reading} {v : BitVec z}

theorem value_ne_zero (op : Reading) (hne : v ≠ 0) : op.value v ≠ 0 := by
  have hzero : op.value (0 : BitVec z) = 0 := by cases op <;> simp [Reading.value]
  rwa [← hzero, ne_eq, op.value_inj]

theorem divisor_eq (hpos : 0 ≤ op.value v) : (v.toNat : ℤ) = op.value v := by
  cases op with
  | uint => rfl
  | sint =>
    have hmsb : v.msb = false := by
      rw [BitVec.msb_eq_toInt]
      exact decide_eq_false (Int.not_lt.mpr hpos)
    exact (BitVec.toInt_eq_toNat_of_msb hmsb).symm

theorem divisor_of_neg (hz : 0 < z) (hneg : op.value v < 0) :
    op = .sint ∧ (v.toNat : ℤ) = op.value v + 2 * 2 ^ (z - 1) ∧ -2 ^ (z - 1) ≤ op.value v := by
  cases op with
  | uint => exact absurd hneg (Int.not_lt.mpr (Int.natCast_nonneg _))
  | sint =>
    have hpow : ((2 ^ z : ℕ) : ℤ) = 2 * 2 ^ (z - 1) := by
      rw [← pow_succ', Nat.sub_add_cancel hz]
      push_cast
      rfl
    refine ⟨rfl, ?_, (toInt_bounds hz v).1⟩
    rw [← hpow]
    simp only [Reading.value, BitVec.toInt_eq_toNat_cond] at hneg ⊢
    split at hneg <;> omega

theorem holds_remainder (hz : 0 < z) (hne : v ≠ 0) (x : BitVec (2 * z)) :
    op.Holds z ((op.value x).tmod (op.value v)) := by
  have hsmall := ((Truncated.divides_iff (value_ne_zero op hne)).mpr
    ⟨rfl, rfl⟩ : Truncated.Divides (op.value x) _ _ _).small
  have hv := op.holds_value hz v
  cases op with
  | uint =>
    have hnonneg : 0 ≤ (Reading.uint.value x).tmod (Reading.uint.value v) :=
      Int.tmod_nonneg _ (Int.natCast_nonneg _)
    rw [abs_of_nonneg hnonneg, abs_of_nonneg hv.1] at hsmall
    exact ⟨hnonneg, hsmall.trans hv.2⟩
  | sint =>
    have hle : |Reading.sint.value v| ≤ 2 ^ (z - 1) := abs_le.mpr ⟨hv.1, hv.2.le⟩
    have hlt := abs_lt.mp (hsmall.trans_le hle)
    exact ⟨hlt.1.le, hlt.2⟩

/-- The words that a divisor without its sign gives, for the number that the architecture
divides. -/
theorem words_iff (hz : 0 < z) {d : ℤ} (hfits : op.Holds z (d.tdiv (op.value v))) :
    (BitVec.ofInt z (d.tdiv v.toNat) = BitVec.ofInt z (d.tdiv (op.value v)) ∧
      BitVec.ofInt z (d.tmod v.toNat) = BitVec.ofInt z (d.tmod (op.value v))) ↔
      (op.value v < 0 → |d| < |op.value v| ∨
        op.value v = -2 ^ (z - 1) ∧ d.tdiv (op.value v) = -2 ^ (z - 1)) := by
  by_cases hneg : op.value v < 0
  · obtain ⟨rfl, hdiv, hle⟩ := divisor_of_neg hz hneg
    have hpow : (2 ^ z : ℤ) = 2 * 2 ^ (z - 1) := by rw [← pow_succ', Nat.sub_add_cancel hz]
    rw [imp_iff_right hneg, ← Truncated.quotient_iff hneg hle hfits.1 hfits.2, hdiv, ofInt_eq_iff,
      hpow]
    refine and_iff_left_of_imp fun hquot ↦ ?_
    have hcase := (Truncated.quotient_iff hneg hle hfits.1 hfits.2).mp hquot
    rw [Truncated.remainder_eq hneg hle (hcase.imp_right And.left)]
  · rw [divisor_eq (Int.not_lt.mp hneg)]
    exact iff_of_true ⟨rfl, rfl⟩ fun h ↦ absurd h hneg

end

/-! The instructions. -/

section

variable {h : Host} {l : Locals} {z : ℕ} {val : Place} {slot : Slot} {m m' : Machine}
  {v v' : BitVec z} {op : Reading}

theorem remainderSet_halves (op : Reading) (v : BitVec z) (m : Machine) (q : BitVec z) :
    ((remainderSet op v m).mapCpu fun cpu ↦ cpu.setNamed .eax q).cpu.regs =
      (m.cpu.setHalves q (BitVec.ofInt z ((op.value (m.cpu.dividend z)).tmod v.toNat))).regs := by
  have hne : Reg32.eax ≠ Reg32.edx := by decide
  simp only [remainderSet, Machine.mapCpu, CpuState.setHalves, CpuState.setNamed, CpuState.setReg]
  rw [Function.update_of_ne hne, Function.update_of_ne hne.symm, Function.update_comm hne.symm]

/-- What is in the places of the quotient and the remainder. -/
theorem halves_read {lo hi : BitVec z} {cpu cpu' : CpuState} (hz : z = 8 ∨ z = 16 ∨ z = 32)
    (hregs : cpu'.regs = (cpu.setHalves lo hi).regs) :
    cpu'.quotient z = lo ∧ cpu'.remainder z = if z = 8 then cpu.remainder z else hi := by
  constructor
  · rw [eq_iff_bits]
    intro i hi'
    rw [CpuState.quotient, BitVec.getLsbD_setWidth, hregs, setHalves_bit _ _ _ (by omega),
      if_pos ⟨rfl, hi'⟩, decide_eq_true hi', Bool.true_and]
  · rw [eq_iff_bits]
    intro i hi'
    split
    · next h8 =>
      rw [CpuState.remainder, CpuState.remainder, if_pos h8, if_pos h8, hregs,
        BitVec.getLsbD_setWidth, BitVec.getLsbD_setWidth, BitVec.getLsbD_ushiftRight,
        BitVec.getLsbD_ushiftRight, setHalves_bit _ _ _ (by omega), if_neg (by omega),
        if_neg (by simp)]
    · next h8 =>
      rw [CpuState.remainder, if_neg h8, hregs, BitVec.getLsbD_setWidth,
        setHalves_bit _ _ _ (by omega), if_neg (by simp), if_pos ⟨rfl, hi'⟩, decide_eq_true hi',
        Bool.true_and]

/-- Where the quotient fits and the macro ends, the words that must be there. -/
theorem right_iff_words (hz : z = 8 ∨ z = 16 ∨ z = 32) (hne : v ≠ 0)
    (hfits : op.Holds z ((op.value (m.cpu.wide z)).tdiv (op.value v))) {q : BitVec z}
    (hexec : exec h l (op.divInsn val z) m =
      .ok () ((remainderSet op v m).mapCpu fun cpu ↦ cpu.setNamed .eax q)) :
    op.DivRight h l val m v ↔
      (q = BitVec.ofInt z ((op.value (m.cpu.wide z)).tdiv (op.value v)) ∧
        (if z = 8 then m.cpu.remainder z
          else BitVec.ofInt z ((op.value (m.cpu.dividend z)).tmod v.toNat)) =
          BitVec.ofInt z ((op.value (m.cpu.wide z)).tmod (op.value v))) ∧
        (z = 8 → (m.cpu.regs .edx).setWidth z =
          BitVec.ofInt z ((op.value (m.cpu.dividend z)).tmod v.toNat)) := by
  have hpos : 0 < z := by omega
  have hregs := remainderSet_halves op v m q
  obtain ⟨hquot, hrem⟩ := halves_read hz hregs
  rw [Reading.DivRight, if_neg (not_or.mpr ⟨hne, not_not.mpr hfits⟩), ← setHalves_frame hregs,
    ← op.value_eq_iff hpos hfits, ← op.value_eq_iff hpos (holds_remainder hpos hne _),
    ← Truncated.divides_iff (value_ne_zero op hne)]
  constructor
  · rintro ⟨m₁, hexec', hdiv, hframe⟩
    rw [hexec] at hexec'
    cases hexec'
    rw [hquot, hrem] at hdiv
    exact ⟨hdiv, hframe.regs⟩
  · rintro ⟨hdiv, hframe⟩
    refine ⟨_, hexec, ?_, hframe, rfl⟩
    rw [hquot, hrem]
    exact hdiv

theorem remainder_of_ne (cpu : CpuState) (h8 : z ≠ 8) :
    cpu.remainder z = (cpu.regs .edx).setWidth z := if_neg h8

theorem dividend_eq {cpu : CpuState} (hz : z = 8 ∨ z = 16 ∨ z = 32)
    (h : (cpu.regs .edx).setWidth z = cpu.remainder z) : cpu.dividend z = cpu.wide z := by
  rw [wide_eq hz, CpuState.dividend, h]

/-- Of bytes, the same quotient and a remainder that stays where it is leave no other `DL`
than `AH`. -/
theorem remainder_words (hz : z = 8 ∨ z = 16 ∨ z = 32) {cpu : CpuState}
    (hquot : BitVec.ofInt z ((op.value (cpu.dividend z)).tdiv v.toNat) =
      BitVec.ofInt z ((op.value (cpu.wide z)).tdiv (op.value v))) :
    BitVec.ofInt z ((op.value (cpu.dividend z)).tmod v.toNat) =
      BitVec.ofInt z ((op.value (cpu.wide z)).tmod (op.value v)) := by
  rw [ofInt_eq_iff] at hquot ⊢
  have hdiv : (2 ^ z : ℤ) ∣ v.toNat - op.value v := by
    by_cases hneg : op.value v < 0
    · have hpow : (2 ^ z : ℤ) = 2 * 2 ^ (z - 1) := by rw [← pow_succ', Nat.sub_add_cancel (by omega)]
      rw [(divisor_of_neg (by omega) hneg).2.1, hpow, add_sub_cancel_left]
    · rw [divisor_eq (Int.not_lt.mp hneg), sub_self]
      exact dvd_zero _
  have hdividend : (2 ^ z : ℤ) ∣ op.value (cpu.dividend z) - op.value (cpu.wide z) := by
    rw [wide_eq hz, CpuState.dividend, value_halves hz, value_halves hz, add_sub_add_right_eq_sub,
      ← sub_mul]
    exact dvd_mul_left _ _
  have hmod (d w : ℤ) : d.tmod w = d - d.tdiv w * w := eq_sub_of_add_eq (Int.tmod_add_tdiv_mul d w)
  rw [hmod, hmod]
  have hsplit (d d' q q' w u : ℤ) :
      d' - q' * u - (d - q * w) = d' - d - ((q' - q) * u + q * (u - w)) := by ring
  rw [hsplit]
  exact Int.dvd_sub hdividend (Int.dvd_add (hquot.mul_right _) (hdiv.mul_left _))

/-- The upper half has the sign of the whole. -/
theorem sign_wide (hz : z = 8 ∨ z = 16 ∨ z = 32) (cpu : CpuState) :
    op.value (cpu.remainder z) = 0 ∨
      (op.value (cpu.remainder z)).sign = (op.value (cpu.wide z)).sign := by
  have hlow := (cpu.quotient z).isLt
  rw [wide_eq hz, value_halves hz]
  rcases Int.lt_trichotomy (op.value (cpu.remainder z)) 0 with hneg | hzero | hpos
  · right
    rw [Int.sign_eq_neg_one_of_neg hneg, Int.sign_eq_neg_one_of_neg]
    zify at hlow
    nlinarith
  · exact .inl hzero
  · right
    rw [Int.sign_eq_one_of_pos hpos, Int.sign_eq_one_of_pos]
    have hpow : (0 : ℤ) < 2 ^ z := by exact_mod_cast Nat.two_pow_pos z
    nlinarith

/-- Where the divisor is not overwritten. -/
theorem right_iff_meets (hz : z = 8 ∨ z = 16 ∨ z = 32) (hne : v ≠ 0)
    (hfits : op.Holds z ((op.value (m.cpu.wide z)).tdiv (op.value v)))
    (hexec : exec h l (op.divInsn val z) m =
      .ok () ((remainderSet op v m).mapCpu fun cpu ↦ cpu.setNamed .eax
        (BitVec.ofInt z ((op.value (m.cpu.dividend z)).tdiv v.toNat)))) :
    op.DivRight h l val m v ↔ op.DivMeets v m.cpu := by
  have hpos : 0 < z := by omega
  have hwords := words_iff hpos hfits
  rw [right_iff_words hz hne hfits hexec, Reading.DivMeets, or_iff_right hne, and_iff_right hfits]
  by_cases h8 : z = 8
  · rw [if_pos h8, imp_iff_right h8, imp_iff_right h8]
    constructor
    · rintro ⟨⟨hquot, hrem⟩, hdl⟩
      have hsame : (m.cpu.regs .edx).setWidth z = m.cpu.remainder z :=
        hdl.trans ((remainder_words hz hquot).trans hrem.symm)
      have hval := (op.value_eq_iff hpos (holds_remainder hpos hne _) _).mpr hrem
      have hdiv := (Truncated.divides_iff (value_ne_zero op hne)).mpr ⟨rfl, hval⟩
      rw [dividend_eq hz hsame] at hquot hdl
      refine ⟨⟨hsame, hdiv.small, ?_⟩, hwords.mp ⟨hquot, hdl.symm.trans (hsame.trans hrem)⟩⟩
      exact ⟨_, (sub_eq_of_eq_add hdiv.whole).trans (mul_comm _ _)⟩
    · rintro ⟨⟨hsame, hsmall, k, hk⟩, hsign⟩
      have hdiv : Truncated.Divides (op.value (m.cpu.wide z)) (op.value v) k
          (op.value (m.cpu.remainder z)) := by
        refine ⟨?_, hsmall, sign_wide hz m.cpu⟩
        rw [mul_comm k, ← hk, sub_add_cancel]
      have hval := ((Truncated.divides_iff (value_ne_zero op hne)).mp hdiv).2
      have hrem := (op.value_eq_iff hpos (holds_remainder hpos hne _) _).mp hval
      obtain ⟨hquot, hrem'⟩ := hwords.mpr hsign
      rw [dividend_eq hz hsame]
      exact ⟨⟨hquot, hrem⟩, hsame.trans (hrem.trans hrem'.symm)⟩
  · have hsame := (remainder_of_ne m.cpu h8).symm
    rw [if_neg h8, dividend_eq hz hsame, hwords]
    simp [h8]

/-- A divisor that is `DX` or `EDX` and whose quotient fits is -1. -/
theorem divisor_in_edx (hz : z = 16 ∨ z = 32) (hne : v ≠ 0)
    (hv : v = (m.cpu.regs .edx).setWidth z)
    (hfits : op.Holds z ((op.value (m.cpu.wide z)).tdiv (op.value v))) :
    op = .sint ∧ op.value v = -1 := by
  have hz' : z = 8 ∨ z = 16 ∨ z = 32 := .inr hz
  have hlow := (m.cpu.quotient z).isLt
  have hpow : (2 ^ z : ℤ) = 2 * 2 ^ (z - 1) := by rw [← pow_succ', Nat.sub_add_cancel (by omega)]
  zify at hlow
  have hhalf := value_halves hz' op (m.cpu.quotient z) (m.cpu.remainder z)
  rw [← wide_eq hz', remainder_of_ne _ (by omega), ← hv] at hhalf
  rw [hhalf] at hfits
  cases op with
  | uint =>
    exfalso
    have hpos : 0 < Reading.uint.value v :=
      lt_of_le_of_ne (Int.natCast_nonneg _) (value_ne_zero _ hne).symm
    have hlt := hfits.2
    rw [Int.tdiv_eq_ediv_of_nonneg (by positivity)] at hlt
    have hlt' := Int.lt_mul_of_ediv_lt hpos hlt
    nlinarith
  | sint =>
    rw [hpow] at hfits hlow
    exact ⟨rfl, Truncated.upper_half (value_ne_zero _ hne) (Int.natCast_nonneg _) hlow hfits.2⟩

/-- A divisor that the remainder takes the place of is no case where the macro is right. -/
theorem not_meets_of_overwritten (hz : z = 8 ∨ z = 16 ∨ z = 32) (hne : v ≠ 0)
    (hv : v = (m.cpu.regs .edx).setWidth z)
    (hfits : op.Holds z ((op.value (m.cpu.wide z)).tdiv (op.value v))) :
    ¬op.DivMeets v m.cpu := by
  rw [Reading.DivMeets, or_iff_right hne]
  rintro ⟨-, hbyte, hsign⟩
  by_cases h8 : z = 8
  · obtain ⟨hsame, hsmall, -⟩ := hbyte h8
    rw [← hsame, ← hv] at hsmall
    exact absurd hsmall (lt_irrefl _)
  · obtain ⟨rfl, hunit⟩ := divisor_in_edx (by omega) hne hv hfits
    have hlow : ((m.cpu.quotient z).toNat : ℤ) < 2 ^ z := by exact_mod_cast (m.cpu.quotient z).isLt
    have hhalf := value_halves hz .sint (m.cpu.quotient z) (m.cpu.remainder z)
    rw [← wide_eq hz, remainder_of_ne _ h8, ← hv, hunit] at hhalf
    have hone : |(-1 : ℤ)| = 1 := rfl
    rw [hunit, hone] at hsign
    rcases hsign (by decide) with hsmall | ⟨hmin, -⟩
    · have hd := (abs_lt.mp hsmall).1
      rw [hhalf] at hd
      omega
    · rcases hz with rfl | rfl | rfl <;> simp at *

theorem not_right_of_overwritten (hz : z = 8 ∨ z = 16 ∨ z = 32) (hne : v ≠ 0)
    (hv : v = (m.cpu.regs .edx).setWidth z)
    (hfits : op.Holds z ((op.value (m.cpu.wide z)).tdiv (op.value v)))
    (hv' : v' = BitVec.ofInt z ((op.value (m.cpu.dividend z)).tmod v.toNat)) (hdiff : v' ≠ v)
    (hne' : v' ≠ 0) {q : BitVec z} (hexec : exec h l (op.divInsn val z) m =
      .ok () ((remainderSet op v m).mapCpu fun cpu ↦ cpu.setNamed .eax q)) :
    ¬op.DivRight h l val m v := by
  rw [right_iff_words hz hne hfits hexec, ← hv', ← hv]
  rintro ⟨⟨-, hrem⟩, hdl⟩
  by_cases h8 : z = 8
  · exact hdiff (hdl h8).symm
  · obtain ⟨rfl, hunit⟩ := divisor_in_edx (by omega) hne hv hfits
    rw [if_neg h8, hunit, Int.tmod_neg, Int.tmod_one] at hrem
    exact hne' hrem

/-- The divisions, where the divisor is accessible. -/
theorem divide_iff (h : Host) (l : Locals) (op : Reading) {z : ℕ} (hz : z = 8 ∨ z = 16 ∨ z = 32)
    (val : Place) (slot : Slot) (m : Machine) (v : BitVec z) (hval : val.slot l z = some slot)
    (hv : get l val z m = .ok v m) : op.DivRight h l val m v ↔ op.DivMeets v m.cpu := by
  by_cases hne : v = 0
  · subst hne
    refine iff_of_true ?_ (.inl rfl)
    rw [Reading.DivRight, if_pos (.inl rfl)]
    exact ⟨m, divide_zero hv, rfl⟩
  obtain ⟨v', hget, hcase⟩ := reread op hz hval hv
  have hexec := divide_ends (h := h) (by omega) hv hne hget
  by_cases hfits : op.Holds z ((op.value (m.cpu.wide z)).tdiv (op.value v))
  · by_cases hzero : v' = 0
    · rw [if_pos hzero] at hexec
      obtain ⟨-, hv, -⟩ := hcase.resolve_left fun h ↦ hne (h.symm.trans hzero)
      refine iff_of_false ?_ (not_meets_of_overwritten hz hne hv hfits)
      rw [Reading.DivRight, if_neg (not_or.mpr ⟨hne, not_not.mpr hfits⟩), hexec]
      rintro ⟨m', hm, -⟩
      cases hm
    · rw [if_neg hzero] at hexec
      rcases hcase with rfl | ⟨-, hv, hv'⟩
      · exact right_iff_meets hz hne hfits hexec
      · by_cases hsame : v' = v
        · subst hsame
          exact right_iff_meets hz hne hfits hexec
        · exact iff_of_false (not_right_of_overwritten hz hne hv hfits hv' hsame hzero hexec)
            (not_meets_of_overwritten hz hne hv hfits)
  · refine iff_of_false ?_ fun hmeets ↦ hfits (hmeets.resolve_left hne).1
    rw [Reading.DivRight, if_pos (.inr hfits), hexec]
    rintro ⟨m', hm, -⟩
    split at hm <;> cases hm

end

/-- `idiv` of -100 by 7. -/
theorem divide_iff_seven : Reading.sint.DivRight .zero .zero (.reg .ebx)
    (Machine.zero.mapCpu fun cpu ↦
      ((cpu.setReg .eax 0xffffff9c).setReg .edx 0xffffffff).setReg .ebx 7) (7#32) := by
  refine (divide_iff .zero .zero .sint (.inr (.inr rfl)) (.reg .ebx) (.bits .ebx 0) _ _ rfl
    rfl).mpr (.inr ⟨by decide, fun h ↦ absurd h (by decide), fun h ↦ absurd h (by decide)⟩)

/-- The quotient of `2 ^ 32` by 1 does not fit, and no interrupt comes. -/
theorem not_divide_right : ¬Reading.uint.DivRight .zero .zero (.reg .ebx)
    (Machine.zero.mapCpu fun cpu ↦ (cpu.setReg .edx 1).setReg .ebx 1) (1#32) := by
  rw [Reading.DivRight, if_pos (by decide)]
  rintro ⟨m', hm, -⟩
  cases hm

end Isl.Emu
