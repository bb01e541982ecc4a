import Isl.Emu.Written
import Mathlib.Tactic.Linarith

/-!
Multiplication. The macros of one operand put the halves of every product into `reg_a` and
`reg_d`, of bytes too, and test whether it fits into 32 bits whatever the width.
-/

namespace Isl.Emu

open Isl.Lib Interp

/-! The architecture. -/

/-- The double-width number in `AX`, `DX:AX` or `EDX:EAX`. -/
def CpuState.wide (z : ℕ) (cpu : CpuState) : BitVec (2 * z) :=
  if z = 8 then (cpu.regs .eax).setWidth (2 * z)
  else ((cpu.regs .eax).setWidth z).setWidth (2 * z) |||
    ((cpu.regs .edx).setWidth z).setWidth (2 * z) <<< z

/-- The bits of the registers that it lies in. -/
def InWide (z : ℕ) (r : Reg32) (i : ℕ) : Prop :=
  if z = 8 then r = .eax ∧ i < 16 else (r = .eax ∨ r = .edx) ∧ i < z

/-- Outside of them the general registers and the memory are the same. -/
structure WideFrame (z : ℕ) (m m' : Machine) : Prop where
  regs : ∀ r, ∀ i < 32, ¬InWide z r i → (m'.cpu.regs r).getLsbD i = (m.cpu.regs r).getLsbD i
  mem : m'.mem = m.mem

/-- How a word is read as a number. -/
inductive Reading
  | uint
  | sint
deriving DecidableEq

namespace Reading

variable {z : ℕ}

def extend (v : BitVec z) (n : ℕ) : Reading → BitVec n
  | .uint => v.setWidth n
  | .sint => v.signExtend n

def value (v : BitVec z) : Reading → ℤ
  | .uint => v.toNat
  | .sint => v.toInt

/-- The numbers of `k` bits. -/
def Holds (k : ℕ) (p : ℤ) : Reading → Prop
  | .uint => 0 ≤ p ∧ p < 2 ^ k
  | .sint => -2 ^ (k - 1) ≤ p ∧ p < 2 ^ (k - 1)

instance (k : ℕ) (p : ℤ) (op : Reading) : Decidable (op.Holds k p) :=
  match op with
  | .uint => inferInstanceAs (Decidable (0 ≤ p ∧ p < 2 ^ k))
  | .sint => inferInstanceAs (Decidable (-2 ^ (k - 1) ≤ p ∧ p < 2 ^ (k - 1)))

/-- The double-width product. -/
def product (a v : BitVec z) (op : Reading) : BitVec (2 * z) :=
  op.extend a (2 * z) * op.extend v (2 * z)

/-- Whether it is more than the extension of its low half. -/
def overflows (a v : BitVec z) (op : Reading) : Bool :=
  decide (op.product a v ≠ op.extend ((op.product a v).setWidth z) (2 * z))

def mulInsn (val : Place) (z : ℕ) : Reading → Insn
  | .uint => .mul1 val z
  | .sint => .imul1 val z

/-- The whole product is in place, with the flags, and nothing else in the registers and
the memory has changed. -/
def MulRight (h : Host) (l : Locals) (val : Place) (m : Machine) (v : BitVec z) (op : Reading) : Prop :=
  ∃ m', exec h l (op.mulInsn val z) m = .ok () m' ∧
    m'.cpu.wide z = op.product ((m.cpu.regs .eax).setWidth z) v ∧ WideFrame z m m' ∧
    m'.cpu.CF = byteOf (op.overflows ((m.cpu.regs .eax).setWidth z) v) ∧
    m'.cpu.OF = byteOf (op.overflows ((m.cpu.regs .eax).setWidth z) v)

/-- The upper half of a product that fits into the lower one. -/
def fill (p : ℤ) : BitVec 8 := if p < 0 then 0xff else 0

/-- When the macro of one operand does what the architecture says. -/
def MulMeets (v : BitVec z) (cpu : CpuState) (op : Reading) : Prop :=
  let p := op.value ((cpu.regs .eax).setWidth z) * op.value v
  z = 32 ∨ op.Holds z p ∧ (z = 8 →
    (cpu.regs .eax).extractLsb' 8 8 = fill p ∧ (cpu.regs .edx).setWidth 8 = fill p)

end Reading

/-- The low half of the product of two signed numbers, with the flags. -/
def LowHalf {z : ℕ} (l : Locals) (dst : Place) (slot : Slot) (a v : BitVec z) (m : Machine)
    (o : Outcome Stop Wrong Machine Unit) : Prop :=
  ∃ m', o = .ok () m' ∧ get l dst z m' = .ok ((Reading.sint.product a v).setWidth z) m' ∧
    slot.Frame z m m' ∧ m'.cpu.CF = byteOf (Reading.sint.overflows a v) ∧
    m'.cpu.OF = byteOf (Reading.sint.overflows a v)

/-! Products and their halves. -/

section

variable {z n k : ℕ}

theorem Reading.value_inj (op : Reading) {x y : BitVec n} : op.value x = op.value y ↔ x = y := by
  cases op with
  | uint => rw [value, value, Nat.cast_inj, BitVec.toNat_inj]
  | sint => rw [value, value, BitVec.toInt_inj]

theorem bmod_eq_iff (hk : 0 < k) {p : ℤ} :
    p.bmod (2 ^ k) = p ↔ -2 ^ (k - 1) ≤ p ∧ p < 2 ^ (k - 1) := by
  obtain ⟨j, rfl⟩ : ∃ j, k = j + 1 := ⟨k - 1, by omega⟩
  have hpow : ((2 ^ (j + 1) : ℕ) : ℤ) = 2 * 2 ^ j := by rw [pow_succ]; push_cast; ring
  have hpos : 0 < 2 ^ (j + 1) := Nat.two_pow_pos _
  rw [Nat.add_sub_cancel]
  constructor
  · intro h
    have hle := Int.le_bmod (x := p) hpos
    have hlt := Int.bmod_lt (x := p) hpos
    rw [h, hpow] at hle hlt
    omega
  · intro h
    exact Int.bmod_eq_of_le (by rw [hpow]; omega) (by rw [hpow]; omega)

/-- A value is the extension of its low half when it is a number of that width. -/
theorem Reading.eq_extend_iff (op : Reading) (hk : 0 < k) (hkn : k ≤ n) (x : BitVec n) :
    x = op.extend (x.setWidth k) n ↔ op.Holds k (op.value x) := by
  rw [← op.value_inj]
  cases op with
  | uint =>
    have hlt : x.toNat % 2 ^ k < 2 ^ n :=
      lt_of_lt_of_le (Nat.mod_lt _ (Nat.two_pow_pos k)) (Nat.pow_le_pow_right (by decide) hkn)
    rw [extend, value, value, Holds, BitVec.toNat_setWidth, BitVec.toNat_setWidth,
      Nat.mod_eq_of_lt hlt, Nat.cast_inj]
    norm_cast
    rw [eq_comm, Nat.mod_eq_iff_lt (Nat.two_pow_pos k).ne']
    exact ⟨fun h ↦ ⟨Nat.zero_le _, h⟩, fun h ↦ h.2⟩
  | sint =>
    have hlow : (x.setWidth k).toInt = x.toInt.bmod (2 ^ k) := by
      rw [← BitVec.toInt_signExtend_eq_toInt_bmod_of_le x hkn, BitVec.signExtend_eq_setWidth_of_le _ hkn]
    rw [extend, value, value, Holds, BitVec.toInt_signExtend_of_le hkn, hlow, eq_comm, bmod_eq_iff hk]

theorem Reading.value_extend (op : Reading) (hzn : z ≤ n) (v : BitVec z) :
    op.value (op.extend v n) = op.value v := by
  cases op with
  | uint =>
    rw [extend, value, value, BitVec.toNat_setWidth,
      Nat.mod_eq_of_lt (v.isLt.trans_le (Nat.pow_le_pow_right (by decide) hzn))]
  | sint => rw [extend, value, value, BitVec.toInt_signExtend_of_le hzn]

theorem toInt_bounds (hz : 0 < z) (v : BitVec z) :
    -2 ^ (z - 1) ≤ v.toInt ∧ v.toInt < 2 ^ (z - 1) := by
  rw [← bmod_eq_iff hz, BitVec.toInt_bmod_cancel]

/-- The product of two numbers fits into twice their width. -/
theorem Reading.value_product (op : Reading) (hz : 0 < z) (hn : 2 * z ≤ n) (a v : BitVec z) :
    op.value (op.extend a n * op.extend v n) = op.value a * op.value v := by
  have hle : z ≤ n := by omega
  have hpow : (2 : ℤ) ^ (2 * z - 2) = 2 ^ (z - 1) * 2 ^ (z - 1) := by
    rw [← pow_add]
    congr 1
    omega
  cases op with
  | uint =>
    have hval (x : BitVec z) : (Reading.uint.extend x n).toNat = x.toNat := by
      exact Nat.cast_inj.mp (Reading.uint.value_extend hle x)
    have hlt : a.toNat * v.toNat < 2 ^ n := by
      refine lt_of_lt_of_le (Nat.mul_lt_mul'' a.isLt v.isLt) ?_
      rw [← pow_add]
      exact Nat.pow_le_pow_right (by decide) (by omega)
    rw [value, BitVec.toNat_mul, hval, hval, Nat.mod_eq_of_lt hlt]
    exact Nat.cast_mul _ _
  | sint =>
    have hval (x : BitVec z) : (Reading.sint.extend x n).toInt = x.toInt :=
      Reading.sint.value_extend hle x
    have hlow : (2 : ℤ) ^ (2 * z - 2) < 2 ^ (n - 1) :=
      pow_lt_pow_right₀ (by decide) (by omega)
    obtain ⟨ha, ha'⟩ := toInt_bounds hz a
    obtain ⟨hv, hv'⟩ := toInt_bounds hz v
    rw [value, BitVec.toInt_mul, hval, hval]
    refine (bmod_eq_iff (by omega)).mpr ?_
    constructor <;> nlinarith

end

/-! The macros. -/

/-- `reg_a` and `reg_d` set at the width. -/
def CpuState.setHalves {z : ℕ} (lo hi : BitVec z) (cpu : CpuState) : CpuState :=
  (cpu.setNamed .eax lo).setNamed .edx hi

section

variable {h : Host} {l : Locals} {z : ℕ} {val : Place} {m m' : Machine} {v : BitVec z}
  {cpu cpu' : CpuState} {p : Qword}

theorem high_half (hz : 2 * z ≤ 64) (p : Qword) :
    (p >>> z).setWidth z = p.extractLsb' z z ∧
      (p.sshiftRight z).setWidth z = p.extractLsb' z z := by
  constructor
  · apply BitVec.eq_of_getLsbD_eq
    intro i hi
    simp [hi]
  · apply BitVec.eq_of_getLsbD_eq
    intro i hi
    simp [hi, BitVec.getLsbD_sshiftRight, show ¬64 ≤ i by omega, show z + i < 64 by omega]

theorem mul_ends (hz : 2 * z ≤ 64) (op : Reading) (hv : get l val z m = .ok v m) {p : Qword}
    (hp : p = op.extend ((m.cpu.regs .eax).setWidth z) 64 * op.extend v 64) :
    ∃ m', exec h l (op.mulInsn val z) m = .ok () m' ∧ m'.mem = m.mem ∧
      m'.cpu.regs = (m.cpu.setHalves (p.setWidth z) (p.extractLsb' z z)).regs ∧
      m'.cpu.cf = byteOf (p != op.extend (p.setWidth 32) 64) ∧
      m'.cpu.of = byteOf (p != op.extend (p.setWidth 32) 64) := by
  subst hp
  cases op with
  | uint =>
    refine ⟨_, Exec.bind_eq rfl (Exec.bind_eq hv rfl), rfl, ?_, rfl, rfl⟩
    rw [CpuState.setHalves, ← (high_half hz _).1]
    rfl
  | sint =>
    refine ⟨_, Exec.bind_eq rfl (Exec.bind_eq hv rfl), rfl, ?_, rfl, rfl⟩
    rw [CpuState.setHalves, ← (high_half hz _).2]
    rfl

theorem setHalves_bit (lo hi : BitVec z) (r : Reg32) {i : ℕ} (hi32 : i < 32) :
    ((cpu.setHalves lo hi).regs r).getLsbD i =
      if r = .eax ∧ i < z then lo.getLsbD i
      else if r = .edx ∧ i < z then hi.getLsbD i else (cpu.regs r).getLsbD i := by
  simp only [CpuState.setHalves, CpuState.setNamed, CpuState.setReg]
  by_cases hd : r = .edx
  · subst hd
    rw [Function.update_self, getLsbD_insertBits _ _ _ hi32]
    by_cases hz : i < z <;> simp [hz]
  · rw [Function.update_of_ne hd]
    by_cases ha : r = .eax
    · subst ha
      rw [Function.update_self, getLsbD_insertBits _ _ _ hi32]
      by_cases hz : i < z <;> simp [hz]
    · rw [Function.update_of_ne ha]
      simp [ha, hd]

theorem eq_iff_bits {w : ℕ} (x y : BitVec w) : x = y ↔ ∀ i < w, x.getLsbD i = y.getLsbD i :=
  ⟨fun h _ _ ↦ h ▸ rfl, fun h ↦ BitVec.eq_of_getLsbD_eq h⟩

/-- Outside of the two registers nothing changes, and of bytes `DL` must not. -/
theorem setHalves_frame {lo hi : BitVec z}
    (hregs : cpu'.regs = (cpu.setHalves lo hi).regs) :
    (∀ r, ∀ i < 32, ¬InWide z r i → (cpu'.regs r).getLsbD i = (cpu.regs r).getLsbD i) ↔
      (z = 8 → (cpu.regs .edx).setWidth z = hi) := by
  rw [eq_iff_bits, hregs]
  constructor
  · intro h h8 i hi'
    have hbit := h .edx i (by omega) fun hin ↦ by
      rw [InWide, if_pos h8] at hin
      cases hin.1
    rw [setHalves_bit _ _ _ (by omega), if_neg (by simp), if_pos ⟨rfl, hi'⟩] at hbit
    rw [BitVec.getLsbD_setWidth, decide_eq_true hi', Bool.true_and, hbit]
  · intro h r i hi' hout
    by_cases h8 : z = 8
    · rw [InWide, if_pos h8] at hout
      rw [setHalves_bit _ _ _ hi', if_neg fun hin ↦ hout ⟨hin.1, by omega⟩]
      split
      · next hd =>
        rw [← h h8 i hd.2, BitVec.getLsbD_setWidth, decide_eq_true hd.2, Bool.true_and, hd.1]
      · rfl
    · rw [InWide, if_neg h8] at hout
      rw [setHalves_bit _ _ _ hi', if_neg fun hin ↦ hout ⟨.inl hin.1, hin.2⟩,
        if_neg fun hin ↦ hout ⟨.inr hin.1, hin.2⟩]

/-- The halves of words make the number. -/
theorem wide_setHalves (hz : z = 16 ∨ z = 32)
    (hregs : cpu'.regs = (cpu.setHalves (p.setWidth z) (p.extractLsb' z z)).regs) :
    cpu'.wide z = p.setWidth (2 * z) := by
  have hne : z ≠ 8 := by omega
  apply BitVec.eq_of_getLsbD_eq
  intro i hi
  rw [CpuState.wide, if_neg hne, hregs]
  simp only [BitVec.getLsbD_or, BitVec.getLsbD_setWidth, BitVec.getLsbD_shiftLeft, hi,
    decide_true, Bool.true_and]
  by_cases hlow : i < z
  · rw [setHalves_bit _ _ _ (by omega), if_pos ⟨rfl, hlow⟩]
    simp [hlow]
  · rw [setHalves_bit _ _ .edx (by omega), if_neg (by simp), if_pos ⟨rfl, by omega⟩]
    simp [hlow, show i - z < 2 * z by omega, show i - z < z by omega,
      show z + (i - z) = i by omega]

/-- Of bytes the upper half goes to `DL`, while `AH` stays. -/
theorem wide_byte (hregs : cpu'.regs = (cpu.setHalves (p.setWidth 8) (p.extractLsb' 8 8)).regs) :
    cpu'.wide 8 = p.setWidth (2 * 8) ↔
      (cpu.regs .eax).extractLsb' 8 8 = p.extractLsb' 8 8 := by
  rw [eq_iff_bits, eq_iff_bits, CpuState.wide, if_pos rfl, hregs]
  constructor
  · intro h i hi
    have hbit := h (8 + i) (by omega)
    rw [BitVec.getLsbD_setWidth, BitVec.getLsbD_setWidth, setHalves_bit _ _ _ (by omega),
      if_neg (by omega), if_neg (by simp)] at hbit
    simpa [hi, show 8 + i < 16 by omega] using hbit
  · intro h i hi
    rw [BitVec.getLsbD_setWidth, BitVec.getLsbD_setWidth, setHalves_bit _ _ _ (by omega)]
    by_cases hlow : i < 8
    · rw [if_pos ⟨rfl, hlow⟩]
      simp [hlow]
    · have hbit := h (i - 8) (by omega)
      rw [if_neg (by omega), if_neg (by simp)]
      simpa [show i - 8 < 8 by omega, show 8 + (i - 8) = i by omega, hi] using hbit

/-! The instructions. -/

theorem Reading.holds_value {n : ℕ} (op : Reading) (hn : 0 < n) (x : BitVec n) :
    op.Holds n (op.value x) := by
  rw [← op.eq_extend_iff hn (Nat.le_refl n), BitVec.setWidth_eq]
  cases op with
  | uint => rw [extend, BitVec.setWidth_eq]
  | sint => rw [extend, BitVec.signExtend_eq]

/-- The flags of the macro, which ask for 32 bits, against those of the architecture. -/
theorem flag_iff (hz : z = 8 ∨ z = 16 ∨ z = 32) (op : Reading) (a v : BitVec z) {p : Qword}
    (hp : p = op.extend a 64 * op.extend v 64) :
    byteOf (p != op.extend (p.setWidth 32) 64) = byteOf (op.overflows a v) ↔
      z = 32 ∨ op.Holds z (op.value a * op.value v) := by
  have hval : op.value p = op.value a * op.value v := by
    rw [hp, op.value_product (by omega) (by omega)]
  have hmacro : p = op.extend (p.setWidth 32) 64 ↔ op.Holds 32 (op.value a * op.value v) := by
    rw [op.eq_extend_iff (by decide) (by decide), hval]
  have harch : op.product a v = op.extend ((op.product a v).setWidth z) (2 * z) ↔
      op.Holds z (op.value a * op.value v) := by
    rw [op.eq_extend_iff (by omega) (by omega), Reading.product,
      op.value_product (by omega) (Nat.le_refl _)]
  rw [byteOf_inj, Bool.eq_iff_iff, bne_iff_ne, Reading.overflows, decide_eq_true_iff, ne_eq, ne_eq,
    hmacro, harch]
  by_cases h32 : z = 32
  · simp [h32]
  · have hwide : op.Holds 32 (op.value a * op.value v) := by
      have hle : 2 * z ≤ 32 := by omega
      rw [← op.value_product (n := 32) (by omega) hle]
      exact op.holds_value (by decide) _
    simp [h32, hwide]

/-- The upper half of a byte product that fits into a byte. -/
theorem fill_of_holds (op : Reading) (h : op.Holds 8 (op.value p)) :
    p.extractLsb' 8 8 = Reading.fill (op.value p) := by
  obtain ⟨x, rfl⟩ : ∃ x : BitVec 8, p = op.extend x 64 :=
    ⟨_, (op.eq_extend_iff (by decide) (by decide) p).mpr h⟩
  rw [op.value_extend (by decide)]
  have hbit (i : ℕ) (hi : i < 8) : (op.extend x 64).getLsbD (8 + i) = decide (op.value x < 0) := by
    cases op with
    | uint =>
      rw [Reading.extend, Reading.value, BitVec.getLsbD_setWidth, BitVec.getLsbD_of_ge x _ (by omega),
        Bool.and_false, decide_eq_false (by omega)]
    | sint =>
      rw [Reading.extend, Reading.value, BitVec.getLsbD_signExtend, if_neg (by omega),
        decide_eq_true (by omega), Bool.true_and, BitVec.msb_eq_toInt]
  have hfill : ∀ b : Bool, ∀ i < 8, (if b = true then 0xff#8 else 0#8).getLsbD i = b := by decide
  apply BitVec.eq_of_getLsbD_eq
  intro i hi
  have hbyte := hfill (decide (op.value x < 0)) i hi
  simp only [decide_eq_true_iff] at hbyte
  rw [BitVec.getLsbD_extractLsb', hbit i hi, decide_eq_true hi, Bool.true_and]
  exact hbyte.symm

theorem mul_right_iff (hz : z = 8 ∨ z = 16 ∨ z = 32) (op : Reading)
    (hv : get l val z m = .ok v m) : op.MulRight h l val m v ↔ op.MulMeets v m.cpu := by
  obtain ⟨p, hp⟩ : ∃ p, p = op.extend ((m.cpu.regs .eax).setWidth z) 64 * op.extend v 64 := ⟨_, rfl⟩
  obtain ⟨m', hexec, hmem, hregs, hcf, hof⟩ := mul_ends (h := h) (by omega) op hv hp
  have hflag := flag_iff hz op _ v hp
  have hlow : p.setWidth (2 * z) = op.product ((m.cpu.regs .eax).setWidth z) v := by
    rw [hp, BitVec.setWidth_mul _ _ (by omega), Reading.product]
    have hcut (x : BitVec z) : (op.extend x 64).setWidth (2 * z) = op.extend x (2 * z) := by
      cases op with
      | uint => exact BitVec.setWidth_setWidth_of_le x (by omega)
      | sint =>
        apply BitVec.eq_of_getLsbD_eq
        intro i hi
        simp only [Reading.extend, BitVec.getLsbD_setWidth, BitVec.getLsbD_signExtend, hi,
          decide_true, Bool.true_and, show i < 64 by omega]
    rw [hcut, hcut]
  have hright : op.MulRight h l val m v ↔
      (m'.cpu.wide z = p.setWidth (2 * z) ∧
        ∀ r, ∀ i < 32, ¬InWide z r i → (m'.cpu.regs r).getLsbD i = (m.cpu.regs r).getLsbD i) ∧
      (z = 32 ∨ op.Holds z (op.value ((m.cpu.regs .eax).setWidth z) * op.value v)) := by
    rw [Reading.MulRight, hlow, ← hflag]
    constructor
    · rintro ⟨m₁, hexec', hwide, hframe, hcf', -⟩
      rw [hexec] at hexec'
      cases hexec'
      exact ⟨⟨hwide, hframe.regs⟩, hcf.symm.trans hcf'⟩
    · rintro ⟨⟨hwide, hframe⟩, heq⟩
      exact ⟨m', hexec, hwide, ⟨hframe, hmem⟩, hcf.trans heq, hof.trans heq⟩
  rw [hright, Reading.MulMeets]
  by_cases h8 : z = 8
  · subst h8
    have hval : op.value p = op.value ((m.cpu.regs .eax).setWidth 8) * op.value v := by
      rw [hp, op.value_product (by decide) (by decide)]
    rw [setHalves_frame hregs, imp_iff_right rfl, wide_byte hregs, and_comm, or_iff_right (by decide), or_iff_right (by decide), ← hval]
    refine and_congr_right fun hholds ↦ ?_
    rw [fill_of_holds op hholds, imp_iff_right rfl]
  · rw [and_iff_right (wide_setHalves (by omega) hregs), setHalves_frame hregs]
    simp [h8]

/-- The flags of the overflow macro are those of a product that does not fit. -/
theorem smulOverflow_eq (hz : 0 < z) (a v : BitVec z) :
    a.smulOverflow v = Reading.sint.overflows a v := by
  have harch := Reading.sint.eq_extend_iff hz (Nat.le_mul_of_pos_left z Nat.two_pos)
    (Reading.sint.product a v)
  have hval := Reading.sint.value_product hz (Nat.le_refl _) a v
  rw [← Reading.product] at hval
  rw [hval] at harch
  rw [Bool.eq_iff_iff, Reading.overflows, decide_eq_true_iff, ne_eq, harch]
  simp only [BitVec.smulOverflow, Bool.or_eq_true, decide_eq_true_iff, Reading.Holds, Reading.value]
  omega

theorem mul_low (hz : 0 < z) (a v : BitVec z) : a * v = (Reading.sint.product a v).setWidth z := by
  have hcut (x : BitVec z) : (x.signExtend (2 * z)).setWidth z = x := by
    apply BitVec.eq_of_getLsbD_eq
    intro i hi
    simp only [BitVec.getLsbD_setWidth, BitVec.getLsbD_signExtend, hi, decide_true, Bool.true_and,
      if_true, show i < 2 * z by omega]
  rw [Reading.product, Reading.extend, Reading.extend, BitVec.setWidth_mul _ _ (by omega), hcut, hcut]

section

variable {dst : Place} {slot : Slot} {a : BitVec z}

/-- The macros of two and three operands differ in the flags that follow the result. -/
theorem imul_stores (hz : z = 8 ∨ z = 16 ∨ z = 32) (hdst : dst.slot l z = some slot)
    {x y : Operand} (hx : get l x z m = .ok a m) (hy : get l y z m = .ok v m)
    (g : CpuState → CpuState) :
    slot.Stores m (a * v) (fun cpu ↦ g { cpu with
      res := (a * v).signExtend 32, of := byteOf (a.smulOverflow v), cf := byteOf (a.smulOverflow v) })
      ((do
        let a ← get l x z
        let v ← get l y z
        let ov ← signedOverflow .mul a v
        setOf ov
        setCf ov
        setFromRes l dst z
        modifyCpu g : Op Unit) m) := by
  have hkeeps : KeepsRegs fun cpu ↦ { cpu with
      res := (a * v).signExtend 32, of := byteOf (a.smulOverflow v),
      cf := byteOf (a.smulOverflow v) } := ⟨fun _ ↦ rfl, fun _ _ _ ↦ rfl⟩
  have hstores := setFromRes_cut hkeeps g (m := m) rfl (by omega) hdst
  rw [setWidth_signExtend (by omega)] at hstores
  refine hstores.of_eq ?_
  refine Exec.bind_eq hx (Exec.bind_eq hy (Exec.bind_eq (signedOverflow_apply _ _ _ _) ?_))
  exact Exec.bind_eq (setOf_apply _ _) (Exec.bind_eq (setCf_apply _ _) rfl)

theorem low_half (hz : z = 8 ∨ z = 16 ∨ z = 32) (hdst : dst.slot l z = some slot)
    (hw : slot.Writable m z) {g : CpuState → CpuState} {o : Outcome Stop Wrong Machine Unit}
    (h : slot.Stores m (a * v) g o) (hregs : ∀ cpu, (g cpu).regs = cpu.regs)
    (hcf : ∀ cpu, (g cpu).cf = byteOf (a.smulOverflow v))
    (hof : ∀ cpu, (g cpu).of = byteOf (a.smulOverflow v)) : LowHalf l dst slot a v m o := by
  obtain ⟨m', ho, hget, hframe, regs, hcpu⟩ := h.ends hz hdst hw hregs
  rw [mul_low (by omega)] at hget
  rw [smulOverflow_eq (by omega)] at hcf hof
  refine ⟨m', ho, hget, hframe, ?_, ?_⟩
  · rw [CpuState.CF, hcpu, hcf]
  · rw [CpuState.OF, hcpu, hof]

end

end

/-- Of one operand the macro is right where the product fits, except that the width of 32
bits is right throughout and bytes need the upper half to be in place; those of two and
three operands are right. -/
theorem multiply_iff (h : Host) (l : Locals) {z : ℕ} (hz : z = 8 ∨ z = 16 ∨ z = 32) (m : Machine) :
    (∀ (op : Reading) (val : Place) (v : BitVec z), get l val z m = .ok v m →
      (op.MulRight h l val m v ↔ op.MulMeets v m.cpu)) ∧
    ∀ (dst : Place) (slot : Slot) (a v : BitVec z), dst.slot l z = some slot → slot.Writable m z →
      (∀ val : Operand, get l dst z m = .ok a m → get l val z m = .ok v m →
        LowHalf l dst slot a v m (exec h l (.imul2 val dst z) m)) ∧
      ∀ src factor : Operand, get l src z m = .ok a m → get l factor z m = .ok v m →
        LowHalf l dst slot a v m (exec h l (.imul3 factor src dst z) m) := by
  refine ⟨fun op val v hv ↦ mul_right_iff hz op hv, fun dst slot a v hdst hw ↦ ⟨?_, ?_⟩⟩
  · intro val ha hv
    exact low_half hz hdst hw (imul_stores hz hdst ha hv CpuState.withRes) (fun _ ↦ rfl)
      (fun _ ↦ rfl) fun _ ↦ rfl
  · intro src factor ha hv
    exact low_half hz hdst hw (imul_stores hz hdst ha hv fun cpu ↦
      { ((cpu.setFlag .sf false).setFlag .zf false) with
        pfRes := true, sfRes := false, zfRes := false }) (fun _ ↦ rfl) (fun _ ↦ rfl) fun _ ↦ rfl

/-- Bytes whose product fits, with the sign in `AH` and `DL`, and `IMUL` of two registers. -/
theorem multiply_iff_two :
    Reading.sint.MulRight .zero .zero (.reg .ebx) (Machine.zero.mapCpu fun cpu ↦
      ((cpu.setReg .eax 0xff03).setReg .edx 0xff).setReg .ebx 0xfe) (0xfe#8) ∧
    LowHalf .zero (.reg .ebx) (.bits .ebx 0) (0x40000000#32) 2
      (Machine.zero.mapCpu fun cpu ↦ cpu.setReg .ebx 0x40000000)
      (exec .zero .zero (.imul2 (.const 2) (.reg .ebx) 32)
        (Machine.zero.mapCpu fun cpu ↦ cpu.setReg .ebx 0x40000000)) ∧
    LowHalf .zero (.reg .ecx) (.bits .ecx 0) (0x4000#16) 5
      (Machine.zero.mapCpu fun cpu ↦ cpu.setReg .ebx 0x4000)
      (exec .zero .zero (.imul3 (.const 5) (Place.reg .ebx) (.reg .ecx) 16)
        (Machine.zero.mapCpu fun cpu ↦ cpu.setReg .ebx 0x4000)) := by
  refine ⟨?_, ?_, ?_⟩
  · refine ((multiply_iff .zero .zero (.inl rfl) _).1 .sint (.reg .ebx) _ rfl).mpr (.inr ?_)
    exact ⟨by decide, fun _ ↦ by decide⟩
  · exact ((multiply_iff .zero .zero (.inr (.inr rfl)) _).2 (.reg .ebx) (.bits .ebx 0) _ _ rfl
      trivial).1 (.const 2) rfl rfl
  · exact ((multiply_iff .zero .zero (.inr (.inl rfl)) _).2 (.reg .ecx) (.bits .ecx 0) _ _ rfl
      trivial).2 (Place.reg .ebx) (.const 5) rfl rfl

/-- The product of the bytes 16 and 16 is 256, of which `AH` should hold the 1. -/
theorem not_multiply_right : ¬Reading.uint.MulRight .zero .zero (.reg .ebx)
    (Machine.zero.mapCpu fun cpu ↦ (cpu.setReg .eax 16).setReg .ebx 16) (16#8) := by
  rintro ⟨m', hexec, hwide, -⟩
  cases hexec
  exact absurd hwide (by decide)

end Isl.Emu
