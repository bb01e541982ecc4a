import Isl.Emu.Float80
import Mathlib.Data.Rat.Defs
import Mathlib.Tactic.Ring
import Mathlib.Tactic.FieldSimp
import Mathlib.Algebra.Order.Field.Rat

/-! Doubles as 80-bit numbers: no value is lost, and none on the way back. -/

namespace Isl.Emu

namespace Float80

variable (signif : Qword) (exp : BitVec 15) (sign : Bool)

@[simp]
theorem signif_of : (Float80.of signif exp sign).signif = signif := rfl

@[simp]
theorem exp_of : (Float80.of signif exp sign).exp = exp := by
  have h := BitVec.setWidth_append (k := 15) (x := BitVec.ofBool sign) (y := exp)
  exact h.trans (by simp)

@[simp]
theorem sign_of : (Float80.of signif exp sign).sign = sign := by
  have h := BitVec.msb_append (x := BitVec.ofBool sign) (y := exp)
  exact h.trans (by simp)

end Float80

namespace DoubleBits

/-- A double is its three fields. -/
theorem of_fields (d : Double) : DoubleBits.of (signif d) (exp d) (sign d) = d := by
  apply BitVec.eq_of_getLsbD_eq
  intro i hi
  simp only [DoubleBits.of, signif, exp, sign, BitVec.getLsbD_append, BitVec.getLsbD_setWidth,
    BitVec.getLsbD_extractLsb', BitVec.getLsbD_ofBool]
  grind [BitVec.msb_eq_getLsbD_last]

end DoubleBits

/-! Values. -/

inductive FloatClass
  | zero
  | finite
  | infinite
  | nan
deriving DecidableEq

def Float80.classify (f : Float80) : FloatClass :=
  if f80Isnan f then .nan
  else if f80Isinf f then .infinite
  else if f80Iszero f then .zero
  else .finite

def signed (sign : Bool) (x : ℚ) : ℚ := if sign then -x else x

/-- The value of a finite number. The point is behind the first bit. -/
def Float80.value (f : Float80) : ℚ :=
  signed f.sign (f.signif.toNat * 2 ^ (unbiasDenormal f.exp - 63))

namespace DoubleBits

def classify (d : Double) : FloatClass :=
  if exp d = exp64Special then if signif d = 0 then .infinite else .nan
  else if exp d = exp64Denormal ∧ signif d = 0 then .zero
  else .finite

/-- The significand with the bit that is not stored. -/
def mantissa (d : Double) : ℕ :=
  if exp d = exp64Denormal then (signif d).toNat else 2 ^ 52 + (signif d).toNat

/-- The exponent, where denormal numbers have the one of the smallest normal number. -/
def exponent (d : Double) : ℕ := max (exp d).toNat 1

def value (d : Double) : ℚ := signed (sign d) (mantissa d * 2 ^ (exponent d - 0x3ff - 52 : ℤ))

end DoubleBits

/-! Shifts that lose no bit. -/

section Exact

variable {mode : RoundingMode} (hmode : mode = .roundToNearest ∨ mode = .roundChop)

include hmode

theorem u128ShiftRightRound_of_dvd {i : Uint128} {shift : ℕ} (hi : 2 ^ shift ∣ i.toNat)
    (sign : Bool) : u128ShiftRightRound mode i shift sign = i >>> shift := by
  by_cases hzero : shift = 0
  · simp [u128ShiftRightRound, hzero]
  have hguard : i.getLsbD (shift - 1) = false := by
    obtain ⟨a, ha⟩ := hi
    rw [BitVec.getLsbD, ha, Nat.testBit_two_pow_mul]
    simp
    omega
  by_cases hbig : shift > 127
  · have hlt : i.toNat < 2 ^ shift :=
      lt_of_lt_of_le i.isLt (Nat.pow_le_pow_right (by norm_num) (by omega))
    have hi0 : i = 0#128 := BitVec.eq_of_toNat_eq (Nat.eq_zero_of_dvd_of_lt hi hlt)
    simp [u128ShiftRightRound, hzero, hbig, hi0]
  rcases hmode with rfl | rfl
  · simp [u128ShiftRightRound, hzero, hbig, hguard]
  · simp [u128ShiftRightRound, hzero, hbig]

theorem uint64ShiftRightRound_of_dvd {i : Qword} {shift : ℕ} (hi : 2 ^ shift ∣ i.toNat)
    (sign : Bool) :
    uint128ToUint64 (u128ShiftRightRound mode (uint128FromUint64 i) shift sign) = i >>> shift := by
  have hwide : (uint128FromUint64 i).toNat = i.toNat := by
    simp only [uint128FromUint64, BitVec.toNat_setWidth]
    omega
  rw [u128ShiftRightRound_of_dvd hmode (by rwa [hwide])]
  apply BitVec.eq_of_toNat_eq
  rw [uint128ToUint64, BitVec.toNat_setWidth, BitVec.toNat_ushiftRight, hwide,
    BitVec.toNat_ushiftRight, Nat.mod_eq_of_lt]
  exact lt_of_le_of_lt (Nat.shiftRight_le _ _) i.isLt

theorem f80ShiftRight_of_dvd {signif : Qword} {shift : ℕ} (hi : 2 ^ shift ∣ signif.toNat)
    (exp : BitVec 15) (sign : Bool) :
    f80ShiftRight mode (.of signif exp sign) shift
      = .of (signif >>> shift) (exp + BitVec.ofNat 15 shift) sign := by
  simp only [f80ShiftRight, Float80.signif_of, Float80.exp_of, Float80.sign_of,
    uint64ShiftRightRound_of_dvd hmode hi]
  by_cases hbig : shift > 63
  · have hz : signif >>> shift = 0 := by
      apply BitVec.eq_of_toNat_eq
      rw [BitVec.toNat_ushiftRight]
      exact Nat.shiftRight_eq_zero _ _
        (lt_of_lt_of_le signif.isLt (Nat.pow_le_pow_right (by norm_num) (by omega)))
    simp [hbig, hz]
  · simp [hbig]

end Exact

/-! From doubles. -/

theorem toNat_or_cursedBit {i : Qword} (hi : i.toNat < 2 ^ 63) :
    (i ||| cursedBit).toNat = 2 ^ 63 + i.toNat := by
  have h := Nat.two_pow_add_eq_or_of_lt hi 1
  rw [BitVec.toNat_or, Nat.or_comm]
  exact h.symm

theorem builtinClz_eq {i : Qword} {k : ℕ} (hlow : 2 ^ 63 ≤ i.toNat * 2 ^ k)
    (hhigh : i.toNat * 2 ^ k < 2 ^ 64) : builtinClz i = k := by
  have hpos : i.toNat ≠ 0 := by
    intro h
    simp [h] at hlow
  have hk : k ≤ 63 := by
    by_contra h
    have : 2 ^ 64 ≤ i.toNat * 2 ^ k := by
      calc 2 ^ 64 ≤ 2 ^ k := Nat.pow_le_pow_right (by norm_num) (by omega)
        _ ≤ i.toNat * 2 ^ k := Nat.le_mul_of_pos_left _ (by omega)
    omega
  have hle : i.toNat.size ≤ 64 - k := by
    rw [Nat.size_le]
    have : 2 ^ 64 = 2 ^ (64 - k) * 2 ^ k := by
      rw [← pow_add]
      congr 1
      omega
    exact lt_of_mul_lt_mul_right (this ▸ hhigh) (Nat.zero_le _)
  have hlt : 63 - k < i.toNat.size := by
    rw [Nat.lt_size]
    have : 2 ^ 63 = 2 ^ (63 - k) * 2 ^ k := by
      rw [← pow_add]
      congr 1
      omega
    exact le_of_mul_le_mul_right (this ▸ hlow) (Nat.two_pow_pos k)
  rw [builtinClz]
  omega

theorem f80IsSupported_of_le {signif : Qword} {exp : BitVec 15} (sign : Bool)
    (hsignif : 2 ^ 63 ≤ signif.toNat) (hexp : exp ≠ expDenormal) :
    f80IsSupported (.of signif exp sign) = true := by
  have htop : signif >>> 63 = 1#64 := by
    apply BitVec.eq_of_toNat_eq
    rw [BitVec.toNat_ushiftRight, Nat.shiftRight_eq_div_pow]
    have := signif.isLt
    simp only [BitVec.toNat_ofNat]
    omega
  simp [f80IsSupported, hexp, htop]

/-- A significand is shifted until its first bit is set. -/
theorem f80Normalize_of_shift {signif : Qword} {exp : BitVec 15} (sign : Bool) {k : ℕ}
    (hlow : 2 ^ 63 ≤ signif.toNat * 2 ^ k) (hhigh : signif.toNat * 2 ^ k < 2 ^ 64)
    (hspecial : exp = expSpecial → k = 0) (hk : k < exp.toNat) :
    f80Normalize (.of signif exp sign)
      = some (.of (BitVec.ofNat 64 (signif.toNat * 2 ^ k))
          (BitVec.ofNat 15 (exp.toNat - k)) sign) := by
  have hnonzero : signif ≠ 0 := by
    rintro rfl
    simp at hlow
  have hdenormal : exp ≠ expDenormal := by
    rintro rfl
    simp [expDenormal] at hk
  have hguard : ¬ ((exp = expDenormal ∨ exp = expSpecial) ∧
      (!f80IsSupported (.of signif exp sign)) = true) := by
    rintro ⟨h | h, hnot⟩
    · exact hdenormal h
    · have hsignif : 2 ^ 63 ≤ signif.toNat := by simpa [hspecial h] using hlow
      simp [f80IsSupported_of_le sign hsignif hdenormal] at hnot
  have hmin : ¬ (exp.toNat : ℤ) - k < expMin := by
    have : expMin = 1 := rfl
    omega
  have hexp : exp - BitVec.ofNat 15 k = BitVec.ofNat 15 (exp.toNat - k) := by
    apply BitVec.eq_of_toNat_eq
    rw [BitVec.toNat_sub, BitVec.toNat_ofNat, BitVec.toNat_ofNat]
    have := exp.isLt
    omega
  have hsignif : signif <<< k = BitVec.ofNat 64 (signif.toNat * 2 ^ k) := by
    apply BitVec.eq_of_toNat_eq
    rw [BitVec.toNat_shiftLeft, BitVec.toNat_ofNat, Nat.shiftLeft_eq]
  have hshift : (if (Float80.of signif exp sign).signif = 0 then 64
      else builtinClz (Float80.of signif exp sign).signif) = k :=
    (if_neg hnonzero).trans (builtinClz_eq hlow hhigh)
  rw [f80Normalize, Float80.exp_of, if_neg hguard, if_neg hdenormal]
  simp only [hshift]
  rw [if_neg hmin]
  simp only [f80ShiftLeft, Float80.exp_of, Float80.signif_of, Float80.sign_of, hexp, hsignif]

namespace DoubleBits

variable (d : Double)

theorem mantissa_lt : mantissa d < 2 ^ 53 := by
  have := (signif d).isLt
  rw [mantissa]
  split <;> omega

theorem mantissa_of_normal (hd : exp d ≠ exp64Denormal) : 2 ^ 52 ≤ mantissa d := by
  rw [mantissa, if_neg hd]
  omega

theorem fields_of_mantissa_zero {d : Double} (hd : mantissa d = 0) :
    exp d = exp64Denormal ∧ signif d = 0 := by
  have hdenormal : exp d = exp64Denormal := by
    by_contra h
    have := mantissa_of_normal d h
    omega
  refine ⟨hdenormal, BitVec.eq_of_toNat_eq ?_⟩
  simpa [mantissa, hdenormal] using hd

/-- The stored bits of the mantissa. -/
theorem ofNat_mantissa : BitVec.ofNat 52 (mantissa d) = signif d := by
  apply BitVec.eq_of_toNat_eq
  have := (signif d).isLt
  rw [BitVec.toNat_ofNat, mantissa]
  split <;> omega

/-- How far the mantissa is from its greatest size. -/
def leading (d : Double) : ℕ := 53 - (mantissa d).size

theorem leading_le (hd : mantissa d ≠ 0) : leading d ≤ 52 := by
  have : 0 < (mantissa d).size := Nat.size_pos.mpr (Nat.pos_of_ne_zero hd)
  rw [leading]
  omega

theorem leading_of_normal (hd : exp d ≠ exp64Denormal) : leading d = 0 := by
  have : 52 < (mantissa d).size := Nat.lt_size.mpr (mantissa_of_normal d hd)
  rw [leading]
  omega

theorem mantissa_mul_bounds (hd : mantissa d ≠ 0) :
    2 ^ 63 ≤ mantissa d * 2 ^ (11 + leading d) ∧ mantissa d * 2 ^ (11 + leading d) < 2 ^ 64 := by
  have hsize : (mantissa d).size ≤ 53 := Nat.size_le.mpr (mantissa_lt d)
  have hshift : 11 + leading d = 64 - (mantissa d).size := by
    rw [leading]
    omega
  have hlt := mantissa_lt d
  rw [hshift]
  exact leading_bounds hd (by omega)

end DoubleBits

theorem toNat_signif_shiftLeft (d : Double) :
    ((DoubleBits.signif d).setWidth 64 <<< 11).toNat = (DoubleBits.signif d).toNat * 2 ^ 11 := by
  have := (DoubleBits.signif d).isLt
  rw [BitVec.toNat_shiftLeft, BitVec.toNat_setWidth, Nat.shiftLeft_eq]
  omega

theorem toNat_signif_word (d : Double) :
    (if DoubleBits.exp d ≠ exp64Denormal then (DoubleBits.signif d).setWidth 64 <<< 11 ||| cursedBit
      else (DoubleBits.signif d).setWidth 64 <<< 11).toNat = DoubleBits.mantissa d * 2 ^ 11 := by
  have hlt := (DoubleBits.signif d).isLt
  by_cases hd : DoubleBits.exp d = exp64Denormal
  · rw [if_neg (not_not_intro hd), toNat_signif_shiftLeft, DoubleBits.mantissa, if_pos hd]
  · rw [if_pos hd, toNat_or_cursedBit (by rw [toNat_signif_shiftLeft]; omega),
      toNat_signif_shiftLeft, DoubleBits.mantissa, if_neg hd]
    omega

theorem f80FromDouble_of_exp {d : Double} {exp : BitVec 15} (hd : DoubleBits.mantissa d ≠ 0)
    (hexp : (if DoubleBits.exp d = exp64Special then expSpecial
      else if DoubleBits.exp d = exp64Denormal then
        if DoubleBits.signif d = 0 then 0 else BitVec.ofInt 15 (bias (1 - 0x3ff))
      else BitVec.ofInt 15 (bias ((DoubleBits.exp d).toNat - 0x3ff))) = exp)
    (hspecial : exp = expSpecial → DoubleBits.leading d = 0)
    (hk : DoubleBits.leading d < exp.toNat) :
    f80FromDouble d = some (.of
      (BitVec.ofNat 64 (DoubleBits.mantissa d * 2 ^ (11 + DoubleBits.leading d)))
      (BitVec.ofNat 15 (exp.toNat - DoubleBits.leading d)) (DoubleBits.sign d)) := by
  obtain ⟨hlow, hhigh⟩ := DoubleBits.mantissa_mul_bounds d hd
  have hword := toNat_signif_word d
  simp only [f80FromDouble, hexp]
  rw [f80Normalize_of_shift _ (k := DoubleBits.leading d), hword, mul_assoc, ← pow_add]
  · rwa [hword, mul_assoc, ← pow_add]
  · rwa [hword, mul_assoc, ← pow_add]
  · exact hspecial
  · exact hk

theorem f80FromDouble_finite {d : Double} (hd : DoubleBits.mantissa d ≠ 0)
    (hexp : DoubleBits.exp d ≠ exp64Special) :
    f80FromDouble d = some (.of
      (BitVec.ofNat 64 (DoubleBits.mantissa d * 2 ^ (11 + DoubleBits.leading d)))
      (BitVec.ofNat 15 (DoubleBits.exponent d + 0x3c00 - DoubleBits.leading d))
      (DoubleBits.sign d)) := by
  have hle := DoubleBits.leading_le d hd
  have hlt := (DoubleBits.exp d).isLt
  have hexponent : DoubleBits.exponent d + 0x3c00 < 2 ^ 15 - 1 := by
    rw [DoubleBits.exponent]
    omega
  have hword : (BitVec.ofNat 15 (DoubleBits.exponent d + 0x3c00)).toNat
      = DoubleBits.exponent d + 0x3c00 := by
    rw [BitVec.toNat_ofNat]
    omega
  have hbiased : (if DoubleBits.exp d = exp64Special then expSpecial
      else if DoubleBits.exp d = exp64Denormal then
        if DoubleBits.signif d = 0 then 0 else BitVec.ofInt 15 (bias (1 - 0x3ff))
      else BitVec.ofInt 15 (bias ((DoubleBits.exp d).toNat - 0x3ff)))
      = BitVec.ofNat 15 (DoubleBits.exponent d + 0x3c00) := by
    rw [if_neg hexp]
    by_cases hdenormal : DoubleBits.exp d = exp64Denormal
    · have hsignif : DoubleBits.signif d ≠ 0 := by
        intro h
        simp [DoubleBits.mantissa, hdenormal, h] at hd
      have hone : DoubleBits.exponent d = 1 := by simp [DoubleBits.exponent, hdenormal, exp64Denormal]
      have hb : bias (1 - 0x3ff) = ((1 + 0x3c00 : ℕ) : ℤ) := by norm_num [bias]
      rw [if_pos hdenormal, if_neg hsignif, hone, hb, BitVec.ofInt_natCast]
    · have hpos : (DoubleBits.exp d).toNat ≠ 0 := fun h ↦ hdenormal (BitVec.eq_of_toNat_eq h)
      have hb : bias ((DoubleBits.exp d).toNat - 0x3ff)
          = (((DoubleBits.exp d).toNat + 0x3c00 : ℕ) : ℤ) := by
        rw [bias]
        omega
      rw [if_neg hdenormal, DoubleBits.exponent, max_eq_left (by omega), hb, BitVec.ofInt_natCast]
  rw [f80FromDouble_of_exp hd hbiased, hword]
  · intro h
    have := congrArg BitVec.toNat h
    rw [hword] at this
    simp [expSpecial] at this
    omega
  · rw [hword]
    omega

theorem f80FromDouble_special {d : Double} (hexp : DoubleBits.exp d = exp64Special) :
    f80FromDouble d = some (.of (BitVec.ofNat 64 (DoubleBits.mantissa d * 2 ^ 11)) expSpecial
      (DoubleBits.sign d)) := by
  have hdenormal : DoubleBits.exp d ≠ exp64Denormal := by
    rw [hexp]
    decide
  have hd : DoubleBits.mantissa d ≠ 0 := by
    have := DoubleBits.mantissa_of_normal d hdenormal
    omega
  have hleading := DoubleBits.leading_of_normal d hdenormal
  rw [f80FromDouble_of_exp hd (if_pos hexp) (fun _ ↦ hleading) (by rw [hleading]; decide), hleading]
  rfl

theorem f80FromDouble_zero {d : Double} (hd : DoubleBits.mantissa d = 0) :
    f80FromDouble d = some (.of 0 0 (DoubleBits.sign d)) := by
  obtain ⟨hdenormal, hsignif⟩ := DoubleBits.fields_of_mantissa_zero hd
  have hspecial : DoubleBits.exp d ≠ exp64Special := by
    rw [hdenormal]
    decide
  have hsupported : f80IsSupported (.of 0#64 0#15 (DoubleBits.sign d)) = true := by
    simp [f80IsSupported, expDenormal]
  simp [f80FromDouble, f80Normalize, hdenormal, hsignif, expDenormal, exp64Denormal, exp64Special,
    hsupported]

/-! And back. -/

section Back

variable {mode : RoundingMode} (hmode : mode = .roundToNearest ∨ mode = .roundChop)

include hmode

/-- A significand of 53 bits leaves the number through the field of the double. -/
theorem f80ToDouble_field {m : ℕ} (hm : m < 2 ^ 53) (sign : Bool) :
    uint128ToUint64 (u128ShiftRightRound mode (uint128FromUint64 (BitVec.ofNat 64 (m * 2 ^ 11))) 11
      sign) = BitVec.ofNat 64 m := by
  have hword : (BitVec.ofNat 64 (m * 2 ^ 11)).toNat = m * 2 ^ 11 := by
    rw [BitVec.toNat_ofNat]
    omega
  rw [uint64ShiftRightRound_of_dvd hmode (by rw [hword]; exact dvd_mul_left _ _)]
  apply BitVec.eq_of_toNat_eq
  rw [BitVec.toNat_ushiftRight, hword, Nat.shiftRight_eq_div_pow, BitVec.toNat_ofNat]
  omega

theorem f80ToDouble_of_exp {m : ℕ} {exp : BitVec 15} {newExp : ℤ} (sign : Bool)
    (hlow : 2 ^ 52 ≤ m) (hm : m < 2 ^ 53)
    (hexp : (if exp = expSpecial then (exp64Special.toNat : ℤ) else unbias exp + 0x3ff) = newExp)
    (hpos : 0 < newExp) (hmax : exp ≠ expSpecial → newExp ≤ exp64Max) :
    f80ToDouble mode (.of (BitVec.ofNat 64 (m * 2 ^ 11)) exp sign)
      = DoubleBits.of (BitVec.ofNat 52 m) (BitVec.ofInt 11 newExp) sign := by
  have hdenormal : exp ≠ expDenormal := by
    rintro rfl
    subst hexp
    simp [expDenormal, expSpecial, unbias] at hpos
  have hword : 2 ^ 63 ≤ (BitVec.ofNat 64 (m * 2 ^ 11)).toNat := by
    rw [BitVec.toNat_ofNat]
    omega
  have hrange : ¬ (exp ≠ expSpecial ∧ newExp > exp64Max) := fun h ↦ (hmax h.1).not_gt h.2
  have hfield : (BitVec.ofNat 64 m).getLsbD 53 = false := by
    rw [BitVec.getLsbD_ofNat, Nat.testBit_lt_two_pow hm]
    rfl
  have htrunc : (BitVec.ofNat 64 m).setWidth 52 = BitVec.ofNat 52 m := by simp
  simp only [f80ToDouble, Float80.exp_of, Float80.signif_of, Float80.sign_of,
    f80IsSupported_of_le sign hword hdenormal, hexp, hrange, not_le.mpr hpos,
    f80ToDouble_field hmode hm, hfield, htrunc, Bool.not_true, Bool.false_eq_true, if_false]

/-- A number below the normal doubles is shifted twice, and its exponent ends at zero. -/
theorem f80ToDouble_denormal {m k : ℕ} (sign : Bool) (hk : 0 < k) (hk' : k ≤ 52)
    (hlow : 2 ^ 63 ≤ m * 2 ^ (11 + k)) (hhigh : m * 2 ^ (11 + k) < 2 ^ 64) :
    f80ToDouble mode (.of (BitVec.ofNat 64 (m * 2 ^ (11 + k))) (BitVec.ofNat 15 (0x3c01 - k)) sign)
      = DoubleBits.of (BitVec.ofNat 52 m) 0 sign := by
  have hexp : (BitVec.ofNat 15 (0x3c01 - k)).toNat = 0x3c01 - k := by
    rw [BitVec.toNat_ofNat]
    omega
  have hspecial : BitVec.ofNat 15 (0x3c01 - k) ≠ expSpecial := by
    intro h
    have := congrArg BitVec.toNat h
    rw [hexp] at this
    simp [expSpecial] at this
    omega
  have hdenormal : BitVec.ofNat 15 (0x3c01 - k) ≠ expDenormal := by
    intro h
    have := congrArg BitVec.toNat h
    rw [hexp] at this
    simp [expDenormal] at this
    omega
  have hword : (BitVec.ofNat 64 (m * 2 ^ (11 + k))).toNat = m * 2 ^ (11 + k) := by
    rw [BitVec.toNat_ofNat, Nat.mod_eq_of_lt hhigh]
  have hunbias : unbias (BitVec.ofNat 15 (0x3c01 - k)) + 0x3ff = 1 - (k : ℤ) := by
    rw [unbias, hexp]
    omega
  have hhalf : BitVec.ofNat 64 (m * 2 ^ (11 + k)) >>> 1
      = BitVec.ofNat 64 (m * 2 ^ 11 * 2 ^ (k - 1)) := by
    apply BitVec.eq_of_toNat_eq
    have : m * 2 ^ (11 + k) = 2 * (m * 2 ^ 11 * 2 ^ (k - 1)) := by
      rw [mul_assoc, ← pow_add, mul_left_comm, ← pow_succ']
      congr 2
      omega
    rw [BitVec.toNat_ushiftRight, hword, BitVec.toNat_ofNat, Nat.shiftRight_eq_div_pow]
    omega
  have hmul : m * 2 ^ 11 * 2 ^ (k - 1) < 2 ^ 64 := by
    have : m * 2 ^ 11 * 2 ^ (k - 1) ≤ m * 2 ^ (11 + k) := by
      rw [mul_assoc, ← pow_add]
      exact Nat.mul_le_mul_left _ (Nat.pow_le_pow_right (by norm_num) (by omega))
    omega
  have hm : m < 2 ^ 53 := by
    have : m * 2 ^ 11 ≤ m * 2 ^ 11 * 2 ^ (k - 1) := Nat.le_mul_of_pos_right _ (Nat.two_pow_pos _)
    omega
  have hshifted : f80ShiftRight mode (.of (BitVec.ofNat 64 (m * 2 ^ 11 * 2 ^ (k - 1)))
      (BitVec.ofNat 15 (0x3c01 - k)) sign) (k - 1)
      = .of (BitVec.ofNat 64 (m * 2 ^ 11)) 0x3c00#15 sign := by
    have hn : (BitVec.ofNat 64 (m * 2 ^ 11 * 2 ^ (k - 1))).toNat = m * 2 ^ 11 * 2 ^ (k - 1) := by
      rw [BitVec.toNat_ofNat, Nat.mod_eq_of_lt hmul]
    rw [f80ShiftRight_of_dvd hmode (by rw [hn]; exact dvd_mul_left _ _)]
    congr 1
    · apply BitVec.eq_of_toNat_eq
      rw [BitVec.toNat_ushiftRight, hn, Nat.shiftRight_eq_div_pow,
        Nat.mul_div_cancel _ (Nat.two_pow_pos _), BitVec.toNat_ofNat, Nat.mod_eq_of_lt]
      omega
    · rw [← BitVec.ofNat_add]
      congr 1
      omega
  have hfield : (BitVec.ofNat 64 m).getLsbD 53 = false := by
    rw [BitVec.getLsbD_ofNat, Nat.testBit_lt_two_pow hm]
    rfl
  have htrunc : (BitVec.ofNat 64 m).setWidth 52 = BitVec.ofNat 52 m := by simp
  have hcount : (-(1 - (k : ℤ))).toNat = k - 1 := by omega
  have hrange : ¬ 1 - (k : ℤ) > exp64Max := by
    have : exp64Max = 0x7fe := rfl
    omega
  have hle : 1 - (k : ℤ) ≤ 0 := by omega
  have hzero : unbias 0x3c00#15 + 0x3ff = 0 := by norm_num [unbias]
  simp only [f80ToDouble, Float80.exp_of, Float80.signif_of, Float80.sign_of,
    f80IsSupported_of_le sign (by rwa [hword]) hdenormal, hspecial, hunbias, hrange, hle, hhalf,
    hcount, hshifted, hzero, f80ToDouble_field hmode hm, hfield, htrunc, Bool.not_true,
    Bool.false_eq_true, if_false, if_true, and_false]
  rfl

theorem f80ToDouble_zero (sign : Bool) :
    f80ToDouble mode (.of 0 0 sign) = DoubleBits.of 0 0 sign := by
  have hsupported : f80IsSupported (.of 0#64 0#15 sign) = true := by
    simp [f80IsSupported, expDenormal]
  have hshifted : f80ShiftRight mode (.of 0#64 0#15 sign) 0x3c00 = .of 0#64 0x3c00#15 sign := by
    rw [f80ShiftRight_of_dvd hmode (dvd_zero _), BitVec.zero_ushiftRight, BitVec.zero_add]
  have hfield := f80ToDouble_field hmode (m := 0) (by norm_num) sign
  have hcount : (-(unbias 0#15 + 0x3ff)).toNat = 0x3c00 := by
    norm_num [unbias]
    rfl
  have hspecial : 0#15 ≠ expSpecial := by decide
  have hzero : unbias 0x3c00#15 + 0x3ff = 0 := by norm_num [unbias]
  have hrange : ¬ unbias 0#15 + 0x3ff > exp64Max := by norm_num [unbias, exp64Max]
  have hle : unbias 0#15 + 0x3ff ≤ 0 := by norm_num [unbias]
  change f80ToDouble mode (.of 0#64 0#15 sign) = _
  simp only [Nat.zero_mul] at hfield
  simp only [f80ToDouble, Float80.exp_of, Float80.signif_of, Float80.sign_of, hsupported, hspecial,
    hrange, hle, BitVec.zero_ushiftRight, hcount, hshifted, hzero, hfield, Bool.not_true,
    Bool.false_eq_true, if_false, if_true, and_false]
  rfl

end Back

/-! The conversion is exact, and the number goes back to the same bits. -/

/-- What the conversion of `d` must be. -/
structure Exact (mode : RoundingMode) (d : Double) (f : Float80) : Prop where
  supported : f80IsSupported f = true
  sign : f.sign = DoubleBits.sign d
  classify : f.classify = DoubleBits.classify d
  value : DoubleBits.classify d = .zero ∨ DoubleBits.classify d = .finite →
    f.value = DoubleBits.value d
  back : f80ToDouble mode f = d

theorem low_bits_eq_zero_iff {d : Double} (hnormal : DoubleBits.exp d ≠ exp64Denormal) :
    BitVec.ofNat 64 (DoubleBits.mantissa d * 2 ^ 11) &&& ((-1 : Qword) >>> 1) = 0 ↔
      DoubleBits.signif d = 0 := by
  have hlt := (DoubleBits.signif d).isLt
  have hword : (BitVec.ofNat 64 (DoubleBits.mantissa d * 2 ^ 11) &&& ((-1 : Qword) >>> 1)).toNat
      = (DoubleBits.signif d).toNat * 2 ^ 11 := by
    have hmask : ((-1 : Qword) >>> 1).toNat = 2 ^ 63 - 1 := by decide
    rw [BitVec.toNat_and, hmask, Nat.and_two_pow_sub_one_eq_mod, BitVec.toNat_ofNat,
      DoubleBits.mantissa, if_neg hnormal]
    omega
  constructor
  · intro h
    apply BitVec.eq_of_toNat_eq
    have h' : (DoubleBits.signif d).toNat * 2 ^ 11 = 0 := hword.symm.trans (congrArg BitVec.toNat h)
    have hzero : (DoubleBits.signif d).toNat = 0 := by omega
    exact hzero
  · intro h
    apply BitVec.eq_of_toNat_eq
    rw [hword, h]
    rfl

section

variable {mode : RoundingMode} (hmode : mode = .roundToNearest ∨ mode = .roundChop)

include hmode

theorem exact_zero {d : Double} (hd : DoubleBits.mantissa d = 0) :
    Exact mode d (.of 0 0 (DoubleBits.sign d)) := by
  obtain ⟨hdenormal, hsignif⟩ := DoubleBits.fields_of_mantissa_zero hd
  have hclass : DoubleBits.classify d = .zero := by
    simp [DoubleBits.classify, hdenormal, hsignif, exp64Denormal, exp64Special]
  constructor
  · simp [f80IsSupported, expDenormal]
  · simp
  · rw [hclass]
    simp [Float80.classify, f80Isnan, f80Isinf, f80Iszero, expDenormal, expSpecial]
  · intro _
    simp [Float80.value, DoubleBits.value, hd]
  · rw [f80ToDouble_zero hmode]
    conv_rhs => rw [← DoubleBits.of_fields d, hdenormal, hsignif]
    rfl

theorem exact_special {d : Double} (hexp : DoubleBits.exp d = exp64Special) :
    Exact mode d (.of (BitVec.ofNat 64 (DoubleBits.mantissa d * 2 ^ 11)) expSpecial
      (DoubleBits.sign d)) := by
  have hnormal : DoubleBits.exp d ≠ exp64Denormal := by
    rw [hexp]
    decide
  have hlow := DoubleBits.mantissa_of_normal d hnormal
  have hm := DoubleBits.mantissa_lt d
  have hword : (BitVec.ofNat 64 (DoubleBits.mantissa d * 2 ^ 11)).toNat
      = DoubleBits.mantissa d * 2 ^ 11 := by
    rw [BitVec.toNat_ofNat]
    omega
  constructor
  · exact f80IsSupported_of_le _ (by rw [hword]; omega) (by decide)
  · simp
  · by_cases h : DoubleBits.signif d = 0
    · have hzero := (low_bits_eq_zero_iff hnormal).mpr h
      simp only [Float80.classify, f80Isnan, f80Isinf, Float80.exp_of, Float80.signif_of, hzero,
        DoubleBits.classify, hexp, h]
      rfl
    · have hne := mt (low_bits_eq_zero_iff hnormal).mp h
      simp only [Float80.classify, f80Isnan, Float80.exp_of, Float80.signif_of, bne_iff_ne.mpr hne,
        DoubleBits.classify, hexp, h]
      rfl
  · intro h
    simp only [DoubleBits.classify, hexp, if_true] at h
    grind
  · rw [f80ToDouble_of_exp hmode _ hlow hm (if_pos rfl) (by decide) (fun h ↦ absurd rfl h)]
    conv_rhs => rw [← DoubleBits.of_fields d]
    rw [DoubleBits.ofNat_mantissa, hexp]
    congr 1

theorem exact_finite {d : Double} (hd : DoubleBits.mantissa d ≠ 0)
    (hexp : DoubleBits.exp d ≠ exp64Special) :
    Exact mode d (.of
      (BitVec.ofNat 64 (DoubleBits.mantissa d * 2 ^ (11 + DoubleBits.leading d)))
      (BitVec.ofNat 15 (DoubleBits.exponent d + 0x3c00 - DoubleBits.leading d))
      (DoubleBits.sign d)) := by
  obtain ⟨hlow, hhigh⟩ := DoubleBits.mantissa_mul_bounds d hd
  have hle := DoubleBits.leading_le d hd
  have hlt := (DoubleBits.exp d).isLt
  have hne : (DoubleBits.exp d).toNat ≠ 0x7ff := fun h ↦ hexp (BitVec.eq_of_toNat_eq h)
  have hexponent : 1 ≤ DoubleBits.exponent d ∧ DoubleBits.exponent d < 0x7ff := by
    rw [DoubleBits.exponent]
    omega
  have hfield : (BitVec.ofNat 15 (DoubleBits.exponent d + 0x3c00 - DoubleBits.leading d)).toNat
      = DoubleBits.exponent d + 0x3c00 - DoubleBits.leading d := by
    rw [BitVec.toNat_ofNat]
    omega
  have hspecial : BitVec.ofNat 15 (DoubleBits.exponent d + 0x3c00 - DoubleBits.leading d)
      ≠ expSpecial := by
    intro h
    have h' := congrArg BitVec.toNat h
    rw [hfield] at h'
    simp [expSpecial] at h'
    omega
  have hdenormal : BitVec.ofNat 15 (DoubleBits.exponent d + 0x3c00 - DoubleBits.leading d)
      ≠ expDenormal := by
    intro h
    have h' := congrArg BitVec.toNat h
    rw [hfield] at h'
    simp [expDenormal] at h'
    omega
  have hword : (BitVec.ofNat 64 (DoubleBits.mantissa d * 2 ^ (11 + DoubleBits.leading d))).toNat
      = DoubleBits.mantissa d * 2 ^ (11 + DoubleBits.leading d) := by
    rw [BitVec.toNat_ofNat, Nat.mod_eq_of_lt hhigh]
  have hclass : DoubleBits.classify d = .finite := by
    have : ¬ (DoubleBits.exp d = exp64Denormal ∧ DoubleBits.signif d = 0) := by
      rintro ⟨h, h'⟩
      simp [DoubleBits.mantissa, h, h'] at hd
    rw [DoubleBits.classify, if_neg hexp, if_neg this]
  constructor
  · exact f80IsSupported_of_le _ (by rwa [hword]) hdenormal
  · simp
  · rw [hclass]
    simp [Float80.classify, f80Isnan, f80Isinf, f80Iszero, beq_eq_false_iff_ne.mpr hspecial,
      beq_eq_false_iff_ne.mpr hdenormal]
  · intro _
    simp only [Float80.value, DoubleBits.value, Float80.sign_of, Float80.signif_of, Float80.exp_of,
      hword, unbiasDenormal, if_neg hdenormal, unbias, hfield]
    congr 1
    push_cast
    rw [mul_assoc, ← zpow_natCast, ← zpow_add₀ (by norm_num)]
    congr 2
    push_cast
    omega
  · conv_rhs => rw [← DoubleBits.of_fields d, ← DoubleBits.ofNat_mantissa]
    by_cases hnormal : DoubleBits.exp d = exp64Denormal
    · have hone : DoubleBits.exponent d = 1 := by
        simp [DoubleBits.exponent, hnormal, exp64Denormal]
      have hsize : 0 < DoubleBits.leading d := by
        have hm : (DoubleBits.mantissa d).size ≤ 52 := by
          rw [Nat.size_le, DoubleBits.mantissa, if_pos hnormal]
          exact (DoubleBits.signif d).isLt
        rw [DoubleBits.leading]
        omega
      rw [hone, f80ToDouble_denormal hmode _ hsize hle hlow hhigh, hnormal]
      rfl
    · have hleading := DoubleBits.leading_of_normal d hnormal
      have hlow := DoubleBits.mantissa_of_normal d hnormal
      have hm := DoubleBits.mantissa_lt d
      simp only [hleading, Nat.add_zero, Nat.sub_zero] at hfield hspecial ⊢
      have hunbias : unbias (BitVec.ofNat 15 (DoubleBits.exponent d + 0x3c00)) + 0x3ff
          = DoubleBits.exponent d := by
        rw [unbias, hfield]
        omega
      have hexponent' : DoubleBits.exponent d = (DoubleBits.exp d).toNat := by
        have hpos : (DoubleBits.exp d).toNat ≠ 0 := fun h ↦ hnormal (BitVec.eq_of_toNat_eq h)
        rw [DoubleBits.exponent]
        omega
      rw [f80ToDouble_of_exp hmode _ hlow hm ((if_neg hspecial).trans hunbias) (by omega),
        hexponent']
      · simp
      · intro _
        have : exp64Max = 0x7fe := rfl
        omega

end

/-- Every double is converted exactly, and comes back with the same bits. -/
theorem f80FromDouble_exact {mode : RoundingMode}
    (hmode : mode = .roundToNearest ∨ mode = .roundChop) (d : Double) :
    ∃ f, f80FromDouble d = some f ∧ Exact mode d f := by
  by_cases hd : DoubleBits.mantissa d = 0
  · exact ⟨_, f80FromDouble_zero hd, exact_zero hmode hd⟩
  by_cases hexp : DoubleBits.exp d = exp64Special
  · exact ⟨_, f80FromDouble_special hexp, exact_special hmode hexp⟩
  · exact ⟨_, f80FromDouble_finite hd hexp, exact_finite hmode hd hexp⟩

/-- The smallest number above zero. -/
theorem f80FromDouble_exact_one :
    ∃ f, f80FromDouble 1 = some f ∧ Exact .roundToNearest 1 f :=
  f80FromDouble_exact (.inl rfl) 1

end Isl.Emu
