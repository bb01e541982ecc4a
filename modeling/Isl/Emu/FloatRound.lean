import Isl.Emu.Float80Double
import Isl.Lib.Rounding
import Mathlib.Data.Rat.Floor

/-! What the rounding shift computes, and the numbers it ought to compute. -/

namespace Isl.Emu

open Lib.Rounding (Direction Format Rounded)

namespace RoundingMode

def direction : RoundingMode → Direction
  | roundToNearest => .nearestEven
  | roundDown => .down
  | roundUp => .up
  | roundChop => .towardZero

variable (mode : RoundingMode) (sign : Bool)

/-- Whether the shift adds one to the quotient of `n` and `2 ^ shift`. -/
def adds (n shift : ℕ) : Prop :=
  match mode with
  | roundToNearest => n.testBit (shift - 1) = true ∧
      (n % 2 ^ min (shift - 1) 64 ≠ 0 ∨ Odd (n / 2 ^ shift))
  | _ => mode.direction.away sign = true

instance (n shift : ℕ) : Decidable (mode.adds sign n shift) := by
  unfold adds
  cases mode <;> infer_instance

def shifted (n shift : ℕ) : ℕ := n / 2 ^ shift + if mode.adds sign n shift then 1 else 0

theorem shifted_le (n shift : ℕ) : mode.shifted sign n shift ≤ n / 2 ^ shift + 1 := by
  rw [shifted]
  split <;> omega

end RoundingMode

theorem toNat_rest (i : Uint128) {shift : ℕ} (hshift : 0 < shift) :
    (uint128ToUint64 (i &&& ~~~(uint128FromUint64 (-1) <<< (shift - 1)))).toNat
      = i.toNat % 2 ^ min (shift - 1) 64 := by
  apply Nat.eq_of_testBit_eq
  intro j
  rw [Nat.testBit_mod_two_pow, uint128ToUint64, ← BitVec.getLsbD, ← BitVec.getLsbD,
    BitVec.getLsbD_setWidth, BitVec.getLsbD_and, BitVec.getLsbD_not, BitVec.getLsbD_shiftLeft,
    uint128FromUint64, BitVec.getLsbD_setWidth]
  have hones : (-1 : BitVec 64) = BitVec.allOnes 64 := by decide
  rw [hones, BitVec.getLsbD_allOnes]
  by_cases hj : j < 64 <;> by_cases hk : j < shift - 1 <;> simp <;> grind

theorem toNat_u128ShiftRightRound (mode : RoundingMode) (i : Uint128) {shift : ℕ} (sign : Bool)
    (hshift : 0 < shift) (hle : shift ≤ 127) :
    (u128ShiftRightRound mode i shift sign).toNat = mode.shifted sign i.toNat shift := by
  have hquotient : i.toNat / 2 ^ shift < 2 ^ 127 := by
    rw [Nat.div_lt_iff_lt_mul (Nat.two_pow_pos _), ← pow_add]
    exact lt_of_lt_of_le i.isLt (Nat.pow_le_pow_right two_pos (by omega))
  have hshifted : (i >>> shift).toNat = i.toNat / 2 ^ shift := by
    rw [BitVec.toNat_ushiftRight, Nat.shiftRight_eq_div_pow]
  have hadd : (i >>> shift + 1).toNat = i.toNat / 2 ^ shift + 1 := by
    rw [BitVec.toNat_add, hshifted, Nat.mod_eq_of_lt]
    · rfl
    · change i.toNat / 2 ^ shift + 1 < 2 ^ 128
      omega
  have hguard : (i >>> (shift - 1)).getLsbD 0 = i.toNat.testBit (shift - 1) := by
    rw [BitVec.getLsbD_ushiftRight, BitVec.getLsbD, Nat.add_zero]
  have hrest : uint128ToUint64 (i &&& ~~~(uint128FromUint64 (-1) <<< (shift - 1))) ≠ 0 ↔
      i.toNat % 2 ^ min (shift - 1) 64 ≠ 0 := by
    rw [← toNat_rest i hshift, not_iff_not, ← BitVec.toNat_inj]
    rfl
  have hodd : (i >>> shift).getLsbD 0 = decide (Odd (i.toNat / 2 ^ shift)) := by
    simp only [BitVec.getLsbD, hshifted, Nat.testBit_zero, Nat.odd_iff]
  have hsmall := hle.not_gt
  cases mode with
  | roundToNearest =>
    simp only [u128ShiftRightRound, hshift.ne', hsmall, hguard, hrest, hodd, if_false,
      RoundingMode.shifted, RoundingMode.adds]
    split
    · split
      · simp_all
      · split <;> simp_all
    · simp_all
  | roundChop =>
    simp [u128ShiftRightRound, hshift.ne', hsmall, RoundingMode.shifted,
      RoundingMode.adds, RoundingMode.direction, Direction.away, hshifted]
  | _ =>
    simp only [u128ShiftRightRound, hshift.ne', hsmall, if_false, RoundingMode.shifted,
      RoundingMode.adds, RoundingMode.direction, Direction.away]
    cases sign <;> simp only [Bool.not_true, Bool.not_false, Bool.false_eq_true, if_true, if_false,
      hshifted, hadd, Nat.add_zero]

namespace RoundingMode

variable (mode : RoundingMode) (sign : Bool) (n : ℕ)

/-- The first bit that is dropped, and those behind it. -/
theorem mod_two_pow_succ (k : ℕ) :
    n % 2 ^ (k + 1) = n % 2 ^ k + 2 ^ k * if n.testBit k then 1 else 0 := by
  rw [Nat.mod_pow_succ, Nat.testBit_eq_decide_div_mod_eq]
  rcases Nat.mod_two_eq_zero_or_one (n / 2 ^ k) with h | h <;> simp [h]

/-- The guard bit decides, with those behind it or the last bit of the quotient. -/
theorem carries_nearest_iff (k : ℕ) :
    Direction.nearestEven.carries sign n (2 ^ (k + 1)) ↔
      n.testBit k = true ∧ (n % 2 ^ k ≠ 0 ∨ Odd (n / 2 ^ (k + 1))) := by
  have hlt : n % 2 ^ k < 2 ^ k := Nat.mod_lt _ (Nat.two_pow_pos k)
  simp only [Direction.carries, mod_two_pow_succ n k]
  generalize Odd (n / 2 ^ (k + 1)) = odd
  rw [pow_succ 2 k]
  cases n.testBit k with
  | false =>
    simp only [Bool.false_eq_true, if_false, false_and, iff_false]
    omega
  | true =>
    simp only [if_true, true_and, mul_one]
    by_cases hodd : odd <;> simp only [hodd, or_true, iff_true, or_false, and_true, and_false] <;>
      omega

theorem adds_nearest_iff {shift : ℕ} (hshift : 0 < shift) (hle : shift ≤ 65) :
    roundToNearest.adds sign n shift ↔ Direction.nearestEven.carries sign n (2 ^ shift) := by
  obtain ⟨k, rfl⟩ : ∃ k, shift = k + 1 := ⟨shift - 1, by omega⟩
  have hmin : min k 64 = k := by omega
  rw [adds, carries_nearest_iff, Nat.add_sub_cancel, hmin]

theorem shifted_eq_iff_adds {shift : ℕ} :
    mode.shifted sign n shift = mode.direction.quotient sign n (2 ^ shift) ↔
      (mode.adds sign n shift ↔ mode.direction.carries sign n (2 ^ shift)) := by
  rw [shifted, Direction.quotient, Nat.add_right_inj]
  split_ifs with hadds hcarries hcarries <;> simp [hadds, hcarries]

/-- The directions other than the nearest do not look at the bits behind the guard bit. -/
theorem shifted_eq_iff_of_directed {shift : ℕ} (hmode : mode ≠ roundToNearest) :
    mode.shifted sign n shift = mode.direction.quotient sign n (2 ^ shift) ↔
      ¬ (mode.direction.away sign = true ∧ 2 ^ shift ∣ n) := by
  rw [shifted_eq_iff_adds, Nat.dvd_iff_mod_eq_zero]
  cases mode with
  | roundToNearest => exact absurd rfl hmode
  | _ =>
    simp only [adds, direction, Direction.carries, Direction.away]
    cases sign <;> by_cases hn : n % 2 ^ shift = 0 <;> simp [hn]

/-- The shift is right but for magnitudes that need no rounding, to which it adds one
where the direction is away from zero. -/
theorem shifted_eq_iff {shift : ℕ} (hshift : 0 < shift) (hle : shift ≤ 65) :
    mode.shifted sign n shift = mode.direction.quotient sign n (2 ^ shift) ↔
      ¬ (mode.direction.away sign = true ∧ 2 ^ shift ∣ n) := by
  cases mode with
  | roundToNearest =>
    rw [shifted_eq_iff_adds]
    refine iff_of_true (adds_nearest_iff sign n hshift hle) ?_
    simp [direction, Direction.away]
  | _ => exact shifted_eq_iff_of_directed _ sign n (by decide)

theorem shifted_nearest {shift : ℕ} (hshift : 0 < shift) (hle : shift ≤ 65) :
    roundToNearest.shifted sign n shift = Direction.nearestEven.quotient sign n (2 ^ shift) :=
  (shifted_eq_iff roundToNearest sign n hshift hle).mpr (by simp [direction, Direction.away])

/-- A multiple is rounded up in the directions away from zero. -/
theorem shifted_two_pow_mul {shift : ℕ} (hshift : 0 < shift) (hle : shift ≤ 65) (c : ℕ) :
    mode.shifted sign (2 ^ shift * c) shift = c + if mode.direction.away sign then 1 else 0 := by
  have hdiv : 2 ^ shift * c / 2 ^ shift = c := Nat.mul_div_cancel_left c (Nat.two_pow_pos shift)
  have hdvd : 2 ^ shift ∣ 2 ^ shift * c := dvd_mul_right _ _
  rw [shifted, hdiv]
  cases mode with
  | roundToNearest =>
    have hadds := (adds_nearest_iff sign (2 ^ shift * c) hshift hle).not.mpr
      (Direction.not_carries _ sign (Nat.two_pow_pos shift) hdvd)
    rw [if_neg hadds]
    rfl
  | _ => simp [adds]

theorem quotient_le_shifted {shift : ℕ} (hshift : 0 < shift) (hle : shift ≤ 65) :
    mode.direction.quotient sign n (2 ^ shift) ≤ mode.shifted sign n shift := by
  by_cases h : mode.direction.away sign = true ∧ 2 ^ shift ∣ n
  · rw [Direction.quotient_of_dvd _ sign (Nat.two_pow_pos shift) h.2]
    exact Nat.le_add_right _ _
  · exact ((shifted_eq_iff mode sign n hshift hle).mpr h).ge

end RoundingMode

theorem toNat_uint64ShiftRightRound (mode : RoundingMode) (i : Qword) {shift : ℕ} (sign : Bool)
    (hshift : 0 < shift) (hle : shift ≤ 127) :
    (uint128ToUint64 (u128ShiftRightRound mode (uint128FromUint64 i) shift sign)).toNat
      = mode.shifted sign i.toNat shift := by
  have hwide : (uint128FromUint64 i).toNat = i.toNat := by
    rw [uint128FromUint64, BitVec.toNat_setWidth, Nat.mod_eq_of_lt]
    exact lt_of_lt_of_le i.isLt (by norm_num)
  have hhalf : i.toNat / 2 ^ shift ≤ i.toNat / 2 :=
    Nat.div_le_div_left (Nat.le_self_pow hshift.ne' 2) two_pos
  have hle' := mode.shifted_le sign i.toNat shift
  have hlt := i.isLt
  rw [uint128ToUint64, BitVec.toNat_setWidth, toNat_u128ShiftRightRound mode _ sign hshift hle,
    hwide, Nat.mod_eq_of_lt]
  omega

theorem toNat_f80ShiftRight (mode : RoundingMode) (f : Float80) (shift : ℕ) :
    (f80ShiftRight mode f shift).signif.toNat
      = if shift = 0 then f.signif.toNat
        else if shift ≤ 63 then mode.shifted f.sign f.signif.toNat shift else 0 := by
  rw [f80ShiftRight, Float80.signif_of]
  split_ifs with hbig hzero hle hzero hle
  · omega
  · omega
  · rfl
  · have hwide := BitVec.setWidth_setWidth_of_le f.signif (show 64 ≤ 128 by norm_num)
    rw [hzero, u128ShiftRightRound, if_pos rfl, uint128ToUint64, uint128FromUint64]
    simp
  · exact toNat_uint64ShiftRightRound mode _ _ (Nat.pos_of_ne_zero hzero) (by omega)
  · omega

/-! What a conversion or an operation ought to give. -/

def f80Format : Format := ⟨64, -16445, 16384⟩

def doubleFormat : Format := ⟨53, -1074, 1024⟩

/-- A number, or an infinity with its sign. -/
def Float80.Is (f : Float80) : Rounded ℚ → Prop
  | .finite x => f80IsSupported f = true ∧ f.exp ≠ expSpecial ∧ f.value = x
  | .infinite negative => f80IsSupported f = true ∧ f80Isinf f = true ∧ f.sign = negative

theorem Float80.Is.supported {f : Float80} {r : Rounded ℚ} (h : f.Is r) :
    f80IsSupported f = true := by
  cases r <;> exact h.1

def DoubleBits.Is (d : Double) : Rounded ℚ → Prop
  | .finite x => (classify d = .zero ∨ classify d = .finite) ∧ value d = x
  | .infinite negative => classify d = .infinite ∧ sign d = negative

theorem f80IsSupported_iff (f : Float80) :
    f80IsSupported f = true ↔ (f.exp ≠ expDenormal ↔ 2 ^ 63 ≤ f.signif.toNat) := by
  have hlt := f.signif.isLt
  have hzero : f.signif >>> 63 = 0#64 ↔ f.signif.toNat < 2 ^ 63 := by
    rw [← BitVec.toNat_inj, BitVec.toNat_ushiftRight, Nat.shiftRight_eq_div_pow]
    simp only [BitVec.toNat_ofNat]
    omega
  have hone : f.signif >>> 63 = 1#64 ↔ 2 ^ 63 ≤ f.signif.toNat := by
    rw [← BitVec.toNat_inj, BitVec.toNat_ushiftRight, Nat.shiftRight_eq_div_pow]
    simp only [BitVec.toNat_ofNat]
    omega
  by_cases hexp : f.exp = expDenormal
  · simpa [f80IsSupported, hexp] using hzero
  · simpa [f80IsSupported, hexp] using hone

theorem toNat_expSpecial : expSpecial.toNat = 32767 := rfl

/-- The bits of the significand that an infinity has not. -/
theorem low_bits_iff {f : Float80} (hf : f80IsSupported f = true) (hexp : f.exp = expSpecial) :
    f.signif &&& ((-1 : Qword) >>> 1) = 0 ↔ f.signif.toNat = 2 ^ 63 := by
  have hlt := f.signif.isLt
  have hnormal : f.exp ≠ expDenormal := by
    rw [hexp]
    decide
  have hlow := ((f80IsSupported_iff f).mp hf).mp hnormal
  have hmask : ((-1 : Qword) >>> 1).toNat = 2 ^ 63 - 1 := by decide
  rw [← BitVec.toNat_inj, BitVec.toNat_and, hmask, Nat.and_two_pow_sub_one_eq_mod]
  change f.signif.toNat % 2 ^ 63 = 0 ↔ _
  omega

theorem exp_of_f80Isinf {f : Float80} (h : f80Isinf f = true) : f.exp = expSpecial := by
  rw [f80Isinf, Bool.and_eq_true, beq_iff_eq] at h
  exact h.1

theorem f80Isnan_iff {f : Float80} (hf : f80IsSupported f = true) (hexp : f.exp = expSpecial) :
    f80Isnan f = true ↔ f.signif.toNat ≠ 2 ^ 63 := by
  simp only [f80Isnan, hexp, beq_self_eq_true, Bool.true_and, bne_iff_ne, ne_eq,
    low_bits_iff hf hexp]

theorem f80Isinf_iff {f : Float80} (hf : f80IsSupported f = true) (hexp : f.exp = expSpecial) :
    f80Isinf f = true ↔ f.signif.toNat = 2 ^ 63 := by
  simp only [f80Isinf, hexp, beq_self_eq_true, Bool.true_and, beq_iff_eq, low_bits_iff hf hexp]

theorem f80Isnan_of_finite {f : Float80} (hf : f.exp ≠ expSpecial) : f80Isnan f = false := by
  rw [f80Isnan, beq_eq_false_iff_ne.mpr hf, Bool.false_and]

theorem f80Isinf_of_finite {f : Float80} (hf : f.exp ≠ expSpecial) : f80Isinf f = false := by
  rw [f80Isinf, beq_eq_false_iff_ne.mpr hf, Bool.false_and]

theorem nan_or_inf {f : Float80} (hf : f80IsSupported f = true) (hexp : f.exp = expSpecial) :
    f80Isnan f = true ∨ f80Isinf f = true := by
  rw [f80Isnan_iff hf hexp, f80Isinf_iff hf hexp]
  exact ne_or_eq _ _

theorem f80Iszero_of_inf {f : Float80} (h : f80Isinf f = true) : f80Iszero f = false := by
  have hne : expSpecial ≠ expDenormal := by decide
  rw [f80Iszero, exp_of_f80Isinf h, beq_eq_false_iff_ne.mpr hne, Bool.false_and]

theorem f80Isinf_of_iszero {f : Float80} (h : f80Iszero f = true) : f80Isinf f = false := by
  cases hinf : f80Isinf f
  · rfl
  · rw [f80Iszero_of_inf hinf] at h
    cases h

theorem f80Isnan_nan : f80Isnan f80Nan = true := by decide

theorem Float80.of_fields (f : Float80) : Float80.of f.signif f.exp f.sign = f := by
  obtain ⟨signif, signExp⟩ := f
  rw [Float80.of, Float80.mk.injEq]
  refine ⟨rfl, ?_⟩
  apply BitVec.eq_of_getLsbD_eq
  intro i hi
  simp only [Float80.exp, Float80.sign, BitVec.getLsbD_append, BitVec.getLsbD_setWidth,
    BitVec.getLsbD_ofBool]
  grind [BitVec.msb_eq_getLsbD_last]

end Isl.Emu
