import Isl.Emu.FloatRound

/-!
80-bit numbers as doubles. Where the double is a denormal number the significand is
rounded twice, and what is between the two halves may go to the wrong side.
-/

namespace Isl.Emu

open Lib.Rounding (Direction Format Rounded)

/-! The fields of a double. -/

namespace DoubleBits

variable (s : BitVec 52) (e : BitVec 11) (b : Bool)

@[simp]
theorem signif_of : signif (of s e b) = s := by
  have h := BitVec.setWidth_append (k := 52) (x := BitVec.ofBool b ++ e) (y := s)
  exact h.trans (by simp)

@[simp]
theorem exp_of : exp (of s e b) = e := by
  apply BitVec.eq_of_getLsbD_eq
  intro i hi
  rw [exp, BitVec.getLsbD_extractLsb', of, BitVec.getLsbD_append, BitVec.getLsbD_append]
  simp [hi]

@[simp]
theorem sign_of : sign (of s e b) = b := by
  rw [sign, of, BitVec.msb_append, BitVec.msb_append]
  simp

theorem is_normal {w : ℕ} (hlow : 2 ^ 52 ≤ w) (hw : w < 2 ^ 53) (he : e ≠ exp64Denormal)
    (he' : e ≠ exp64Special) :
    Is (of (BitVec.ofNat 52 w) e b)
      (.finite (Lib.Rounding.signed b ((w : ℚ) * 2 ^ (e.toNat - 1075 : ℤ)))) := by
  have hpos : e.toNat ≠ 0 := fun h ↦ he (BitVec.eq_of_toNat_eq h)
  have hmantissa : mantissa (of (BitVec.ofNat 52 w) e b) = w := by
    rw [mantissa, exp_of, if_neg he, signif_of, BitVec.toNat_ofNat]
    omega
  have hexponent : exponent (of (BitVec.ofNat 52 w) e b) = e.toNat := by
    rw [exponent, exp_of]
    omega
  refine ⟨.inr ?_, ?_⟩
  · simp [classify, he, he']
  · rw [value, hmantissa, hexponent, sign_of]
    norm_num [sub_sub]
    rfl

theorem is_denormal {w : ℕ} (hw : w < 2 ^ 52) :
    Is (of (BitVec.ofNat 52 w) exp64Denormal b)
      (.finite (Lib.Rounding.signed b ((w : ℚ) * 2 ^ (-1074 : ℤ)))) := by
  have hmantissa : mantissa (of (BitVec.ofNat 52 w) exp64Denormal b) = w := by
    rw [mantissa, exp_of, if_pos rfl, signif_of, BitVec.toNat_ofNat, Nat.mod_eq_of_lt hw]
  have hexponent : exponent (of (BitVec.ofNat 52 w) exp64Denormal b) = 1 := by
    rw [exponent, exp_of]
    rfl
  refine ⟨?_, ?_⟩
  · have hspecial : exp64Denormal ≠ exp64Special := by decide
    by_cases h : BitVec.ofNat 52 w = 0 <;> simp only [classify, exp_of, signif_of, hspecial, h,
      if_false, if_true, and_self, and_false, true_or, or_true]
  · rw [value, hmantissa, hexponent, sign_of]
    norm_num
    rfl

theorem is_finite_iff {d : Double} {x y : ℚ} (h : Is d (.finite y)) : Is d (.finite x) ↔ y = x :=
  ⟨fun hx ↦ h.2.symm.trans hx.2, fun hx ↦ ⟨h.1, h.2.trans hx⟩⟩

theorem is_infinity : Is (of 0 exp64Special b) (.infinite b) := by
  simp [Is, classify]

end DoubleBits

/-- The double of a rounded significand, which may be one bit longer. -/
def packed (signif : Qword) (exp : BitVec 11) (sign : Bool) : Double :=
  if signif.getLsbD 53 then DoubleBits.of ((signif >>> 1).setWidth 52) (exp + 1) sign
  else DoubleBits.of (signif.setWidth 52) exp sign

section Packed

variable {w : Qword} (exp : BitVec 11) (sign : Bool)

theorem packed_of_lt (hw : w.toNat < 2 ^ 53) :
    packed w exp sign = DoubleBits.of (BitVec.ofNat 52 w.toNat) exp sign := by
  have hbit : w.getLsbD 53 = false := Nat.testBit_lt_two_pow hw
  have hword : w.setWidth 52 = BitVec.ofNat 52 w.toNat := by
    apply BitVec.eq_of_toNat_eq
    rw [BitVec.toNat_setWidth, BitVec.toNat_ofNat]
  rw [packed, hbit, hword]
  rfl

theorem packed_of_eq (hw : w.toNat = 2 ^ 53) : packed w exp sign = DoubleBits.of 0 (exp + 1) sign := by
  have h : w = 0x20000000000000#64 := BitVec.eq_of_toNat_eq hw
  subst h
  rfl

end Packed

theorem classify_packed_special (sign : Bool) {w : Qword} (hlow : 2 ^ 52 ≤ w.toNat)
    (hhigh : w.toNat ≤ 2 ^ 53) : DoubleBits.classify (packed w exp64Special sign) = .nan ↔
      2 ^ 52 < w.toNat ∧ w.toNat < 2 ^ 53 := by
  by_cases hcarry : w.toNat = 2 ^ 53
  · have hwrap : exp64Special + 1 = exp64Denormal := by decide
    have hne : exp64Denormal ≠ exp64Special := by decide
    rw [packed_of_eq _ _ hcarry, hwrap]
    simp [DoubleBits.classify, hne, hcarry]
  · have hbits : BitVec.ofNat 52 w.toNat = 0 ↔ w.toNat = 2 ^ 52 := by
      rw [← BitVec.toNat_inj, BitVec.toNat_ofNat]
      change w.toNat % 2 ^ 52 = 0 ↔ _
      omega
    rw [packed_of_lt _ _ (by omega), DoubleBits.classify, DoubleBits.exp_of, if_pos rfl,
      DoubleBits.signif_of]
    by_cases hzero : w.toNat = 2 ^ 52
    · rw [if_pos (hbits.mpr hzero)]
      simp [hzero]
    · rw [if_neg (mt hbits.mp hzero)]
      simp only [true_iff]
      omega

section Paths

variable {f : Float80} (hf : f80IsSupported f = true)

include hf

theorem f80ToDouble_of_special (hexp : f.exp = expSpecial) (mode : RoundingMode) :
    f80ToDouble mode f = packed (uint128ToUint64 (u128ShiftRightRound mode
      (uint128FromUint64 f.signif) 11 f.sign)) exp64Special f.sign := by
  have hfield : BitVec.ofInt 11 (exp64Special.toNat : ℤ) = exp64Special := by decide
  have hpos : ¬ (exp64Special.toNat : ℤ) ≤ 0 := by decide
  rw [f80ToDouble, hf]
  simp only [hexp, Bool.not_true, Bool.false_eq_true, if_false, ne_eq, not_true, false_and, if_true,
    hpos, hfield, packed]

theorem f80ToDouble_of_large (hexp : f.exp ≠ expSpecial) (hlarge : 17406 < f.exp.toNat)
    (mode : RoundingMode) : f80ToDouble mode f = doubleInfinity f.sign := by
  have hrange : unbias f.exp + 0x3ff > exp64Max := by
    rw [unbias, exp64Max]
    omega
  rw [f80ToDouble, hf]
  simp only [hexp, Bool.not_true, Bool.false_eq_true, if_false, hrange, ne_eq, not_false_eq_true,
    and_self, if_true]

theorem f80ToDouble_of_normal {e : ℕ} (hexp : f.exp.toNat = e + 15360) (hpos : 0 < e)
    (he : e ≤ 2046) (mode : RoundingMode) :
    f80ToDouble mode f = packed (uint128ToUint64 (u128ShiftRightRound mode
      (uint128FromUint64 f.signif) 11 f.sign)) (BitVec.ofNat 11 e) f.sign := by
  have hspecial : f.exp ≠ expSpecial := by
    intro h
    rw [h, toNat_expSpecial] at hexp
    omega
  have hnew : unbias f.exp + 0x3ff = (e : ℤ) := by
    rw [unbias]
    omega
  have hrange : ¬ (e : ℤ) > exp64Max := by
    rw [exp64Max]
    omega
  have hpos' : ¬ (e : ℤ) ≤ 0 := by omega
  rw [f80ToDouble, hf]
  simp only [hspecial, hnew, Bool.not_true, Bool.false_eq_true, if_false, hrange, and_false, hpos',
    packed, BitVec.ofInt_natCast]

theorem f80ToDouble_of_small {j : ℕ} (hexp : f.exp.toNat + j = 15360) (mode : RoundingMode) :
    f80ToDouble mode f = packed (uint128ToUint64 (u128ShiftRightRound mode
      (uint128FromUint64 (f80ShiftRight mode (.of (f.signif >>> 1) f.exp f.sign) j).signif) 11
        f.sign)) exp64Denormal f.sign := by
  have hspecial : f.exp ≠ expSpecial := by
    intro h
    rw [h, toNat_expSpecial] at hexp
    omega
  have hrange : ¬ unbias f.exp + 0x3ff > exp64Max := by
    rw [exp64Max, unbias]
    omega
  have hpos : unbias f.exp + 0x3ff ≤ 0 := by
    rw [unbias]
    omega
  have hcount : (-(unbias f.exp + 0x3ff)).toNat = j := by
    rw [unbias]
    omega
  have hzero : unbias (f.exp + BitVec.ofNat 15 j) + 0x3ff = 0 := by
    rw [unbias, BitVec.toNat_add, BitVec.toNat_ofNat]
    omega
  rw [f80ToDouble, hf]
  simp only [hspecial, Bool.not_true, Bool.false_eq_true, if_false, hrange, and_false, hpos, if_true,
    hcount, packed, f80ShiftRight, Float80.exp_of, Float80.sign_of, Float80.signif_of, hzero]
  rfl

end Paths

/-! Rounding twice. -/

/-- What is to the wrong side of one half when the last `k` of `k + 11` bits are rounded
first, but for the first of them, which is cut off. -/
def NarrowGuard (n k : ℕ) : Prop :=
  let r := n % 2 ^ (k + 11)
  ¬ (Odd (n / 2 ^ (k + 11)) ∧ 2 ≤ k ∧ 2 ^ (k + 10) ≤ r + 2 ^ (k - 1) ∧ r < 2 ^ (k + 10)) ∧
  ¬ (Even (n / 2 ^ (k + 11)) ∧ 2 ^ (k + 10) < r ∧
    r ≤ 2 ^ (k + 10) + 2 ^ (k - 1) + if k = 1 then 0 else 1) ∧
  ¬ (k = 1 ∧ 2 ^ 64 - 2 ^ 11 ≤ n)

section Twice

variable (sign : Bool)

/-- The significand after both shifts. -/
def twice (n j : ℕ) : ℕ :=
  Direction.nearestEven.quotient sign (if j = 0 then n / 2
    else if j ≤ 63 then Direction.nearestEven.quotient sign (n / 2) (2 ^ j) else 0) (2 ^ 11)

theorem twice_iff_zero {n : ℕ} (hn : n < 2 ^ 64) :
    twice sign n 0 = Direction.nearestEven.quotient sign n (2 ^ 12) ∧ twice sign n 0 < 2 ^ 52 ↔
      NarrowGuard n 1 := by
  have hw := Direction.nearestEven.quotient_cases sign (n / 2) (2 ^ 11)
  have hi := Direction.nearestEven.quotient_cases sign n (2 ^ 12)
  simp only [Direction.carries, Nat.odd_iff] at hw hi
  simp only [twice, NarrowGuard, Nat.odd_iff, Nat.even_iff, if_true, true_and, Nat.reduceAdd,
    Nat.reduceSub]
  rcases hw with ⟨hw, hnot⟩ | ⟨hw, hcarry⟩ <;> rcases hi with ⟨hi, hnot'⟩ | ⟨hi, hcarry'⟩ <;>
    rw [hw, hi] <;> omega

theorem twice_iff_shift {n j : ℕ} (hn : n < 2 ^ 64) (hpos : 0 < j) (hj : j ≤ 63) :
    twice sign n j = Direction.nearestEven.quotient sign n (2 ^ (j + 12)) ∧ twice sign n j < 2 ^ 52 ↔
      NarrowGuard n (j + 1) := by
  obtain ⟨i, rfl⟩ : ∃ i, j = i + 1 := ⟨j - 1, by omega⟩
  simp only [twice, NarrowGuard, if_neg hpos.ne', if_pos hj]
  have hpow : 2 ^ (i + 1 + 12) = 8192 * 2 ^ i := by ring
  have hpow' : 2 ^ (i + 1 + 1 + 10) = 4096 * 2 ^ i := by ring
  have hpow'' : 2 ^ (i + 1) = 2 * 2 ^ i := by ring
  have hexp : i + 1 + 1 + 11 = i + 1 + 12 := by ring
  have hpred : i + 1 + 1 - 1 = i + 1 := rfl
  rw [hexp, hpred, hpow, hpow', hpow'']
  have ha : 0 < 2 ^ i := Nat.two_pow_pos i
  generalize 2 ^ i = a at *
  have hideal := Direction.nearestEven.quotient_cases sign n (8192 * a)
  have hdiv := Nat.div_add_mod n (8192 * a)
  have hmod := Nat.mod_lt n (show 0 < 8192 * a by omega)
  simp only [Direction.carries] at hideal
  generalize Direction.nearestEven.quotient sign n (8192 * a) = ideal at *
  generalize n / (8192 * a) = q at *
  generalize n % (8192 * a) = r at *
  -- the first rounding keeps the even number of places above
  have hhalf : n / 2 = 2 * a * (2048 * q) + r / 2 := by
    have : 2 * a * (2048 * q) = 4096 * (a * q) := by ring
    have : 8192 * a * q = 8192 * (a * q) := by ring
    omega
  have heven : Even (2048 * q) := ⟨1024 * q, by omega⟩
  rw [hhalf, Direction.quotient_mul_add _ sign heven _ (by omega)]
  have hpos : 0 < 2 * a := by omega
  have habove : 1024 < Direction.nearestEven.quotient sign (r / 2) (2 * a) ↔ 2049 * a < r / 2 := by
    have heven : ¬ Odd 1024 := by decide
    simp only [Direction.lt_nearest_iff sign 1024 _ hpos, heven, and_false, or_false]
    omega
  have hbelow : 1023 < Direction.nearestEven.quotient sign (r / 2) (2 * a) ↔ 2047 * a ≤ r / 2 := by
    have hodd : Odd 1023 := by decide
    simp only [Direction.lt_nearest_iff sign 1023 _ hpos, hodd, and_true]
    omega
  have hlimit : Direction.nearestEven.quotient sign (r / 2) (2 * a) ≤ 2048 := by
    have heven : ¬ Odd 2048 := by decide
    simp only [← not_lt, Direction.lt_nearest_iff sign 2048 _ hpos, heven, and_false, or_false]
    omega
  have hq : q < 2 ^ 51 := by
    have : 8192 * q ≤ 8192 * a * q := Nat.mul_le_mul_right q (by omega)
    omega
  generalize Direction.nearestEven.quotient sign (r / 2) (2 * a) = t at *
  have hw := Direction.nearestEven.quotient_cases sign (2048 * q + t) (2 ^ 11)
  simp only [Direction.carries] at hw
  generalize Direction.nearestEven.quotient sign (2048 * q + t) (2 ^ 11) = w at *
  have hone : ¬ i + 1 + 1 = 1 := by omega
  simp only [Nat.odd_iff, Nat.even_iff, hone, if_false, false_and, not_false_eq_true,
    and_true] at hideal hw ⊢
  rcases hideal with ⟨rfl, hideal⟩ | ⟨rfl, hideal⟩ <;>
    rcases hw with ⟨rfl, hw⟩ | ⟨rfl, hw⟩ <;> omega

/-- So far below the smallest double that nothing is left. -/
theorem nearest_of_far {n t : ℕ} (hn : n < 2 ^ 64) (ht : 66 ≤ t) :
    Direction.nearestEven.quotient sign n (2 ^ t) = 0 := by
  have hpow : 2 ^ 66 ≤ 2 ^ t := Nat.pow_le_pow_right two_pos ht
  have hodd : ¬ Odd 0 := by decide
  have h := Direction.lt_nearest_iff sign 0 n (Nat.two_pow_pos t)
  simp only [hodd, and_false, or_false] at h
  omega

theorem twice_of_far {n j : ℕ} (hj : 64 ≤ j) : twice sign n j = 0 := by
  rw [twice, if_neg (by omega), if_neg (by omega)]
  rfl

theorem narrowGuard_of_far {n j : ℕ} (hn : n < 2 ^ 64) (hj : 64 ≤ j) : NarrowGuard n (j + 1) := by
  obtain ⟨i, rfl⟩ : ∃ i, j = i + 64 := ⟨j - 64, by omega⟩
  have hpow : 2 ^ (i + 64 + 1 + 11) = 2 * 2 ^ (i + 64 + 1 + 10) := by ring
  have hpow' : 2 ^ (i + 64 + 1 + 10) = 2048 * 2 ^ (i + 64) := by ring
  have hlarge : 2 ^ 64 ≤ 2 ^ (i + 64) := Nat.pow_le_pow_right two_pos (by omega)
  have hpred : i + 64 + 1 - 1 = i + 64 := rfl
  have hone : ¬ i + 64 + 1 = 1 := by omega
  have hmod : n % 2 ^ (i + 64 + 1 + 11) = n := Nat.mod_eq_of_lt (by omega)
  simp only [NarrowGuard, hmod, hpred, hone, if_false, false_and, not_false_eq_true, and_true]
  omega

end Twice

/-- The significand of a double below the normal numbers. -/
theorem toNat_twice (f : Float80) (j : ℕ) :
    (uint128ToUint64 (u128ShiftRightRound .roundToNearest (uint128FromUint64
      (f80ShiftRight .roundToNearest (.of (f.signif >>> 1) f.exp f.sign) j).signif) 11
        f.sign)).toNat = twice f.sign f.signif.toNat j := by
  rw [toNat_uint64ShiftRightRound _ _ _ (by norm_num) (by norm_num),
    RoundingMode.shifted_nearest _ _ (by norm_num) (by norm_num), toNat_f80ShiftRight, twice,
    Float80.signif_of, Float80.sign_of, BitVec.toNat_ushiftRight, Nat.shiftRight_eq_div_pow, pow_one]
  congr 1
  split_ifs with hzero hle
  · rfl
  · exact RoundingMode.shifted_nearest _ _ (Nat.pos_of_ne_zero hzero) (by omega)
  · rfl

theorem twice_le (sign : Bool) {n : ℕ} (hn : n < 2 ^ 64) (j : ℕ) :
    twice sign n j ≤ 2 ^ 52 ∧ (twice sign n j = 2 ^ 52 → j = 0 ∧ 2 ^ 63 ≤ n) := by
  have hw := fun c ↦ Direction.nearestEven.quotient_le sign c (2 ^ 11)
  have hodd : ¬ Odd (2 ^ 52) := by decide
  have htop := Direction.lt_nearest_iff sign (2 ^ 52) (n / 2) (show 0 < 2 ^ 11 by norm_num)
  simp only [hodd, and_false, or_false] at htop
  by_cases hzero : j = 0
  · have hle := hw (n / 2)
    have htwice : twice sign n j = Direction.nearestEven.quotient sign (n / 2) (2 ^ 11) := by
      rw [twice, if_pos hzero]
    rw [htwice]
    exact ⟨by omega, fun _ ↦ ⟨hzero, by omega⟩⟩
  by_cases hle : j ≤ 63
  · have hc := Direction.nearestEven.quotient_le sign (n / 2) (2 ^ j)
    have hhalf : n / 2 / 2 ^ j ≤ n / 2 / 2 :=
      Nat.div_le_div_left (Nat.le_self_pow hzero 2) two_pos
    have := hw (Direction.nearestEven.quotient sign (n / 2) (2 ^ j))
    simp only [twice, hzero, hle, if_true, if_false]
    omega
  · rw [twice_of_far sign (by omega)]
    omega

/-! When the double is the nearest one. -/

/-- The double of a number is the nearest one, with infinities kept and no number made of
what is none. -/
def ToDoubleRight (f : Float80) : Prop :=
  let d := f80ToDouble .roundToNearest f
  match f.classify with
  | .nan => DoubleBits.classify d = .nan
  | .infinite => DoubleBits.classify d = .infinite ∧ DoubleBits.sign d = f.sign
  | _ => DoubleBits.Is d (doubleFormat.round .nearestEven f.value)

/-- What is no number must keep a bit that is neither rounded off nor carried away, and a
number below the normal doubles must not be rounded twice to the wrong side. -/
def ToDoubleGuard (f : Float80) : Prop :=
  (f80Isnan f = true → 2 ^ 63 + 2 ^ 10 < f.signif.toNat ∧ f.signif.toNat < 2 ^ 64 - 2 ^ 10) ∧
    ∀ k, 0 < k → f.exp.toNat + k = 15361 → NarrowGuard f.signif.toNat k

theorem classify_of_finite {f : Float80} (hexp : f.exp ≠ expSpecial) :
    f.classify = .zero ∨ f.classify = .finite := by
  have h := beq_eq_false_iff_ne.mpr hexp
  simp only [Float80.classify, f80Isnan, f80Isinf, h, Bool.false_and, Bool.false_eq_true, if_false]
  split
  · exact .inl rfl
  · exact .inr rfl

theorem toDoubleRight_of_finite {f : Float80} (hexp : f.exp ≠ expSpecial) :
    ToDoubleRight f ↔
      DoubleBits.Is (f80ToDouble .roundToNearest f) (doubleFormat.round .nearestEven f.value) := by
  rcases classify_of_finite hexp with h | h <;> rw [ToDoubleRight, h]

section Small

variable {f : Float80} (hf : f80IsSupported f = true) {j : ℕ} (hexp : f.exp.toNat + j = 15360)

include hexp

/-- The value in units of the smallest double. -/
theorem value_small : ∃ t, f.value = Lib.Rounding.signed f.sign
      ((f.signif.toNat : ℚ) / (2 ^ t : ℕ) * 2 ^ doubleFormat.least) ∧
    12 ≤ t ∧ (t = j + 12 ∨ 64 ≤ j ∧ 66 ≤ t) := by
  have hleast : doubleFormat.least = -1074 := rfl
  have hplace (t : ℕ) (ht : unbiasDenormal f.exp - 63 = doubleFormat.least - (t : ℤ)) :
      f.value = Lib.Rounding.signed f.sign
        ((f.signif.toNat : ℚ) / (2 ^ t : ℕ) * 2 ^ doubleFormat.least) := by
    rw [Float80.value, ht, zpow_sub₀ two_ne_zero, zpow_natCast]
    push_cast
    rw [mul_div_assoc', div_mul_eq_mul_div]
    rfl
  by_cases hdenormal : f.exp = expDenormal
  · have hzero : f.exp.toNat = 0 := congrArg BitVec.toNat hdenormal
    refine ⟨j + 11, hplace _ ?_, by omega, .inr ⟨by omega, by omega⟩⟩
    rw [unbiasDenormal, if_pos hdenormal]
    omega
  · refine ⟨j + 12, hplace _ ?_, by omega, .inl rfl⟩
    rw [unbiasDenormal, if_neg hdenormal, unbias]
    omega

include hf

theorem toDoubleRight_small : ToDoubleRight f ↔ NarrowGuard f.signif.toNat (j + 1) := by
  have hlt := f.signif.isLt
  have hspecial : f.exp ≠ expSpecial := by
    intro h
    rw [h, toNat_expSpecial] at hexp
    omega
  obtain ⟨t, hvalue, hle, ht⟩ := value_small hexp
  have hpow : 2 ^ 12 ≤ 2 ^ t := Nat.pow_le_pow_right two_pos hle
  have hideal := Lib.Rounding.Format.unlimited_of_lt (K := ℚ) (F := doubleFormat) .nearestEven f.sign
    f.signif.toNat (Nat.two_pow_pos t) (by change _ < 2 ^ 53 * 2 ^ t; omega)
  have hsmall : Direction.nearestEven.quotient f.sign f.signif.toNat (2 ^ t) ≤ 2 ^ 52 + 1 := by
    have hquotient := Direction.nearestEven.quotient_le f.sign f.signif.toNat (2 ^ t)
    have hdiv : f.signif.toNat / 2 ^ t ≤ f.signif.toNat / 2 ^ 12 :=
      Nat.div_le_div_left hpow (by norm_num)
    omega
  have hround := Lib.Rounding.Format.round_of_lt (F := doubleFormat) .nearestEven hideal
    (Lib.Rounding.Format.natCast_mul_zpow_lt (k := 53) (by omega) (by decide))
  obtain ⟨hw, hfull⟩ := twice_le f.sign hlt j
  have hword := toNat_twice f j
  rw [toDoubleRight_of_finite hspecial, f80ToDouble_of_small hf hexp, hvalue, hround,
    packed_of_lt _ _ (by omega), hword]
  have hright : DoubleBits.Is (DoubleBits.of (BitVec.ofNat 52 (twice f.sign f.signif.toNat j))
        exp64Denormal f.sign) (.finite (Lib.Rounding.signed f.sign
        ((Direction.nearestEven.quotient f.sign f.signif.toNat (2 ^ t) : ℚ) * 2 ^ doubleFormat.least))) ↔
      twice f.sign f.signif.toNat j = Direction.nearestEven.quotient f.sign f.signif.toNat (2 ^ t) ∧
        twice f.sign f.signif.toNat j < 2 ^ 52 := by
    by_cases hend : twice f.sign f.signif.toNat j = 2 ^ 52
    · -- the significand is too long, and only its zeros are left
      have hzero : BitVec.ofNat 52 (2 ^ 52) = BitVec.ofNat 52 0 := by decide
      obtain ⟨hj, hlarge⟩ := hfull hend
      have ht12 : t = 12 := by omega
      have hpositive := Direction.nearestEven.quotient_cases f.sign f.signif.toNat (2 ^ 12)
      rw [hend, hzero, DoubleBits.is_finite_iff (DoubleBits.is_denormal f.sign (by norm_num)),
        Lib.Rounding.signed_inj, show (-1074 : ℤ) = doubleFormat.least from rfl,
        Lib.Rounding.natCast_mul_zpow_inj, ht12]
      omega
    · rw [DoubleBits.is_finite_iff (DoubleBits.is_denormal f.sign (by omega)),
        Lib.Rounding.signed_inj, show (-1074 : ℤ) = doubleFormat.least from rfl,
        Lib.Rounding.natCast_mul_zpow_inj]
      omega
  rw [hright]
  rcases ht with rfl | ⟨hj, ht⟩
  · rcases Nat.eq_zero_or_pos j with rfl | hpos
    · exact twice_iff_zero f.sign hlt
    · by_cases hj : j ≤ 63
      · exact twice_iff_shift f.sign hlt hpos hj
      · rw [twice_of_far _ (by omega), nearest_of_far _ hlt (by omega)]
        exact iff_of_true (by norm_num) (narrowGuard_of_far hlt (by omega))
  · rw [twice_of_far _ hj, nearest_of_far _ hlt ht]
    exact iff_of_true (by norm_num) (narrowGuard_of_far hlt hj)

end Small

/-! Normal doubles. -/

section Normal

variable {sign : Bool} {x : ℚ} {e w : ℕ} {word : Qword}
  (hideal : doubleFormat.unlimited .nearestEven (Lib.Rounding.signed sign x) =
    Lib.Rounding.signed sign ((w : ℚ) * 2 ^ (e - 1075 : ℤ)))
  (hword : word.toNat = w)

theorem toNat_ofNat_field (he : e ≤ 2047) : (BitVec.ofNat 11 e).toNat = e := by
  rw [BitVec.toNat_ofNat]
  omega

theorem field_ne {n : ℕ} {field : BitVec 11} (hn : n ≤ 2047) (h : field.toNat ≠ n) :
    BitVec.ofNat 11 n ≠ field := by
  rintro rfl
  exact h (toNat_ofNat_field hn)

include hideal hword

theorem packed_is_round (hpos : 0 < e) (he : e ≤ 2046) (hlow : 2 ^ 52 ≤ w) (hlt : w < 2 ^ 53) :
    DoubleBits.Is (packed word (BitVec.ofNat 11 e) sign)
      (doubleFormat.round .nearestEven (Lib.Rounding.signed sign x)) := by
  have hround := Lib.Rounding.Format.round_of_lt (F := doubleFormat) .nearestEven hideal
    (Lib.Rounding.Format.natCast_mul_zpow_lt (k := 53) (by omega)
      (by change 53 + ((e : ℤ) - 1075) ≤ 1024; omega))
  have his := DoubleBits.is_normal (BitVec.ofNat 11 e) sign (w := w) hlow hlt
    (field_ne (by omega) (by change 0 ≠ e; omega))
    (field_ne (by omega) (by change 2047 ≠ e; omega))
  rw [toNat_ofNat_field (by omega)] at his
  rw [packed_of_lt _ _ (by omega), hword, hround]
  exact his

/-- A carry out of the significand goes into the exponent. -/
theorem packed_is_round_of_carry (he : e < 2046) (hcarry : w = 2 ^ 53) :
    DoubleBits.Is (packed word (BitVec.ofNat 11 e) sign)
      (doubleFormat.round .nearestEven (Lib.Rounding.signed sign x)) := by
  have hround := Lib.Rounding.Format.round_of_lt (F := doubleFormat) .nearestEven hideal
    (Lib.Rounding.Format.natCast_mul_zpow_lt (k := 54) (by omega)
      (by change 54 + ((e : ℤ) - 1075) ≤ 1024; omega))
  have hpower : ((w : ℕ) : ℚ) * 2 ^ (e - 1075 : ℤ) =
      (2 ^ 52 : ℕ) * 2 ^ ((e + 1 : ℕ) - 1075 : ℤ) := by
    rw [hcarry, show ((e + 1 : ℕ) - 1075 : ℤ) = (e - 1075) + 1 by push_cast; ring,
      zpow_add_one₀ two_ne_zero]
    push_cast
    ring
  have his := DoubleBits.is_normal (BitVec.ofNat 11 (e + 1)) sign (w := 2 ^ 52) le_rfl
    (by norm_num) (field_ne (by omega) (by change 0 ≠ e + 1; omega))
    (field_ne (by omega) (by change 2047 ≠ e + 1; omega))
  rw [toNat_ofNat_field (by omega)] at his
  have hnext : BitVec.ofNat 11 e + 1 = BitVec.ofNat 11 (e + 1) := by
    rw [BitVec.ofNat_add]
    rfl
  rw [packed_of_eq _ _ (hword.trans hcarry), hround, hpower, hnext]
  exact his

/-- The last exponent carries into the one of the infinities. -/
theorem packed_is_round_of_overflow (hx : 0 < x) (he : e = 2046) (hcarry : w = 2 ^ 53) :
    DoubleBits.Is (packed word (BitVec.ofNat 11 e) sign)
      (doubleFormat.round .nearestEven (Lib.Rounding.signed sign x)) := by
  have hinfinity : BitVec.ofNat 11 e + 1 = exp64Special := by
    rw [he]
    rfl
  have hreached : (2 : ℚ) ^ doubleFormat.limit ≤
      |doubleFormat.unlimited .nearestEven (Lib.Rounding.signed sign x)| := by
    have hsignif : (0 : ℚ) ≤ (w : ℚ) * 2 ^ (e - 1075 : ℤ) :=
      mul_nonneg (Nat.cast_nonneg w) (zpow_pos two_pos _).le
    rw [hideal, Lib.Rounding.abs_signed _ hsignif, hcarry, Nat.cast_pow, ← zpow_natCast,
      Nat.cast_ofNat, ← zpow_add₀ two_ne_zero]
    refine zpow_le_zpow_right₀ one_le_two ?_
    change (1024 : ℤ) ≤ (53 : ℕ) + (e - 1075)
    omega
  rw [packed_of_eq _ _ (hword.trans hcarry), hinfinity,
    Lib.Rounding.Format.round_of_ge _ hx hreached, Lib.Rounding.Format.overflow_nearest]
  exact DoubleBits.is_infinity sign

end Normal

section Large

variable {f : Float80} (hf : f80IsSupported f = true)

include hf

theorem toDoubleRight_normal {e : ℕ} (hexp : f.exp.toNat = e + 15360) (hpos : 0 < e)
    (he : e ≤ 2046) : ToDoubleRight f := by
  have hlt := f.signif.isLt
  have hspecial : f.exp ≠ expSpecial := by
    intro h
    rw [h, toNat_expSpecial] at hexp
    omega
  have hdenormal : f.exp ≠ expDenormal := by
    intro h
    have hzero : expDenormal.toNat = 0 := rfl
    rw [h, hzero] at hexp
    omega
  have hlow := ((f80IsSupported_iff f).mp hf).mp hdenormal
  have hvalue : f.value = Lib.Rounding.signed f.sign
      ((f.signif.toNat : ℚ) / (2 ^ 11 : ℕ) * 2 ^ (e - 1075 : ℤ)) := by
    have hplace : unbiasDenormal f.exp - 63 = e - 1075 - (11 : ℕ) := by
      rw [unbiasDenormal, if_neg hdenormal, unbias]
      omega
    rw [Float80.value, hplace, zpow_sub₀ two_ne_zero, zpow_natCast]
    push_cast
    rw [mul_div_assoc', div_mul_eq_mul_div]
    rfl
  have hideal := Lib.Rounding.Format.unlimited_of_ge (K := ℚ) (F := doubleFormat) .nearestEven f.sign
    f.signif.toNat (show 0 < 2 ^ 11 by norm_num) (q := e - 1075)
    (by change -1074 ≤ (e : ℤ) - 1075; omega) (by change 2 ^ 53 * 2 ^ 11 ≤ _; omega)
    (by change _ < 2 ^ 53 * 2 ^ 11; omega)
  have hword : (uint128ToUint64 (u128ShiftRightRound .roundToNearest (uint128FromUint64 f.signif) 11
      f.sign)).toNat = Direction.nearestEven.quotient f.sign f.signif.toNat (2 ^ 11) := by
    rw [toNat_uint64ShiftRightRound _ _ _ (by norm_num) (by norm_num),
      RoundingMode.shifted_nearest _ _ (by norm_num) (by norm_num)]
  have hcases := Direction.nearestEven.quotient_cases f.sign f.signif.toNat (2 ^ 11)
  rw [toDoubleRight_of_finite hspecial, f80ToDouble_of_normal hf hexp hpos he, hvalue]
  by_cases hcarry : Direction.nearestEven.quotient f.sign f.signif.toNat (2 ^ 11) = 2 ^ 53
  · have hsignif : (0 : ℚ) < f.signif.toNat := Nat.cast_pos.mpr (by omega)
    have hpositive : (0 : ℚ) < (f.signif.toNat : ℚ) / (2 ^ 11 : ℕ) * 2 ^ (e - 1075 : ℤ) :=
      mul_pos (div_pos hsignif (by norm_num)) (zpow_pos two_pos _)
    by_cases hlast : e = 2046
    · exact packed_is_round_of_overflow hideal hword hpositive hlast hcarry
    · exact packed_is_round_of_carry hideal hword (by omega) hcarry
  · exact packed_is_round hideal hword hpos he (by omega) (by omega)

theorem toDoubleRight_large (hexp : f.exp ≠ expSpecial) (hlarge : 17406 < f.exp.toNat) :
    ToDoubleRight f := by
  have hdenormal : f.exp ≠ expDenormal := by
    intro h
    have hzero : expDenormal.toNat = 0 := rfl
    rw [h, hzero] at hlarge
    omega
  have hlow := ((f80IsSupported_iff f).mp hf).mp hdenormal
  have hvalue : f.value = Lib.Rounding.signed f.sign
      ((f.signif.toNat : ℚ) * 2 ^ (unbias f.exp - 63)) := by
    rw [Float80.value, unbiasDenormal, if_neg hdenormal]
    rfl
  have hle : (2 : ℚ) ^ doubleFormat.limit ≤ (f.signif.toNat : ℚ) * 2 ^ (unbias f.exp - 63) := by
    have hcast : (2 : ℚ) ^ 63 ≤ f.signif.toNat := by exact_mod_cast hlow
    have hplace : doubleFormat.limit ≤ (63 : ℕ) + (unbias f.exp - 63) := by
      change (1024 : ℤ) ≤ _
      rw [unbias]
      omega
    calc (2 : ℚ) ^ doubleFormat.limit ≤ 2 ^ ((63 : ℕ) + (unbias f.exp - 63)) :=
          zpow_le_zpow_right₀ one_le_two hplace
      _ = 2 ^ 63 * 2 ^ (unbias f.exp - 63) := by rw [zpow_add₀ two_ne_zero, zpow_natCast]
      _ ≤ f.signif.toNat * 2 ^ (unbias f.exp - 63) :=
          mul_le_mul_of_nonneg_right hcast (zpow_pos two_pos _).le
  have hreached := Lib.Rounding.Format.le_abs_unlimited (F := doubleFormat) .nearestEven (by decide)
    f.sign hle (by decide)
  rw [toDoubleRight_of_finite hexp, f80ToDouble_of_large hf hexp hlarge, hvalue,
    Lib.Rounding.Format.round_of_ge _ (lt_of_lt_of_le (zpow_pos two_pos _) hle) hreached,
    Lib.Rounding.Format.overflow_nearest]
  exact DoubleBits.is_infinity f.sign

theorem toDoubleRight_special (hexp : f.exp = expSpecial) :
    ToDoubleRight f ↔ (f80Isnan f = true →
      2 ^ 63 + 2 ^ 10 < f.signif.toNat ∧ f.signif.toNat < 2 ^ 64 - 2 ^ 10) := by
  have hlt := f.signif.isLt
  have hnormal : f.exp ≠ expDenormal := by
    rw [hexp]
    decide
  have hlow := ((f80IsSupported_iff f).mp hf).mp hnormal
  have hword : (uint128ToUint64 (u128ShiftRightRound .roundToNearest (uint128FromUint64 f.signif) 11
      f.sign)).toNat = Direction.nearestEven.quotient f.sign f.signif.toNat (2 ^ 11) := by
    rw [toNat_uint64ShiftRightRound _ _ _ (by norm_num) (by norm_num),
      RoundingMode.shifted_nearest _ _ (by norm_num) (by norm_num)]
  have hcases := Direction.nearestEven.quotient_cases f.sign f.signif.toNat (2 ^ 11)
  simp only [Direction.carries, Nat.odd_iff] at hcases
  have hd := f80ToDouble_of_special hf hexp .roundToNearest
  rw [ToDoubleRight, hd]
  generalize Direction.nearestEven.quotient f.sign f.signif.toNat (2 ^ 11) = w at *
  generalize uint128ToUint64 (u128ShiftRightRound .roundToNearest (uint128FromUint64 f.signif) 11
    f.sign) = word at *
  have hbits := f80Isnan_iff hf hexp
  by_cases hnan : f80Isnan f = true
  · have hclass : f.classify = .nan := by rw [Float80.classify, if_pos hnan]
    simp only [hclass, classify_packed_special f.sign (hword ▸ (by omega) : 2 ^ 52 ≤ word.toNat)
      (by omega), hnan, true_implies, hword]
    omega
  · have hinf : f80Isinf f = true := by
      simp only [f80Isnan, f80Isinf, hexp, beq_self_eq_true, Bool.true_and, bne_iff_ne, ne_eq,
        not_not, beq_iff_eq] at hnan ⊢
      exact hnan
    have hclass : f.classify = .infinite := by
      rw [Float80.classify, if_neg hnan, if_pos hinf]
    have hm : f.signif.toNat = 2 ^ 63 := by
      by_contra h
      exact hnan (hbits.mpr h)
    have hzero : BitVec.ofNat 52 (2 ^ 52) = 0 := by decide
    simp only [hclass, hnan, Bool.false_eq_true, false_implies, iff_true]
    rw [packed_of_lt _ _ (by omega), hword, show w = 2 ^ 52 by omega, hzero]
    exact DoubleBits.is_infinity f.sign

end Large

/-- When the conversion to a double is right. -/
theorem f80ToDouble_iff {f : Float80} (hf : f80IsSupported f = true) :
    ToDoubleRight f ↔ ToDoubleGuard f := by
  have hnot_nan (hexp : f.exp ≠ expSpecial) : f80Isnan f = false := by
    rw [f80Isnan, beq_eq_false_iff_ne.mpr hexp, Bool.false_and]
  by_cases hspecial : f.exp = expSpecial
  · rw [toDoubleRight_special hf hspecial, ToDoubleGuard, hspecial, toNat_expSpecial]
    exact ⟨fun h ↦ ⟨h, fun k _ hk ↦ by omega⟩, fun h ↦ h.1⟩
  simp only [ToDoubleGuard, hnot_nan hspecial, Bool.false_eq_true, false_implies, true_and]
  by_cases hsmall : f.exp.toNat ≤ 15360
  · obtain ⟨j, hj⟩ : ∃ j, f.exp.toNat + j = 15360 := ⟨15360 - f.exp.toNat, by omega⟩
    rw [toDoubleRight_small hf hj]
    refine ⟨fun h k _ hk ↦ ?_, fun h ↦ h (j + 1) (by omega) (by omega)⟩
    obtain rfl : k = j + 1 := by omega
    exact h
  have hfree (k : ℕ) (hpos : 0 < k) : f.exp.toNat + k ≠ 15361 := by omega
  refine iff_of_true ?_ (fun k hpos hk ↦ absurd hk (hfree k hpos))
  by_cases hlarge : 17406 < f.exp.toNat
  · exact toDoubleRight_large hf hspecial hlarge
  · obtain ⟨e, he⟩ : ∃ e, f.exp.toNat = e + 15360 := ⟨f.exp.toNat - 15360, by omega⟩
    exact toDoubleRight_normal hf he (by omega) (by omega)

/-- One and the smallest number above it, of which the double is one. -/
theorem f80ToDouble_iff_one : ToDoubleRight (.of 0x8000000000000001 0x3fff false) ↔
    ToDoubleGuard (.of 0x8000000000000001 0x3fff false) :=
  f80ToDouble_iff (by decide)

/-- What is no number, with its last bit only, becomes an infinity. -/
theorem not_toDoubleRight : ¬ ∀ f, f80IsSupported f = true → ToDoubleRight f := by
  intro h
  have hnan := h (.of 0x8000000000000001 0x7fff false) (by decide)
  have hinfinite : DoubleBits.classify
      (f80ToDouble .roundToNearest (.of 0x8000000000000001 0x7fff false)) = .infinite := by decide
  have hclass : (Float80.of 0x8000000000000001 0x7fff false).classify = .nan := by decide
  rw [ToDoubleRight, hclass] at hnan
  exact absurd (hinfinite.symm.trans hnan) (by decide)

end Isl.Emu
