import Isl.Emu.FloatRound

/-!
`u128_normalize_round`: a significand of 128 bits is brought to 64. Where the high half
is not zero the leading zeros are counted in a word that is twice as long, and the
significand is shifted 64 places too far.
-/

namespace Isl.Emu

open Lib.Rounding (Direction Format Rounded)

/-! Leading zeros. -/

theorem uint128CountLeadingZeros_eq {x : Uint128} {k : ℕ} (hk : k < 128)
    (hlow : 2 ^ 127 ≤ x.toNat * 2 ^ k) (hhigh : x.toNat * 2 ^ k < 2 ^ 128) :
    uint128CountLeadingZeros x = k := by
  have hbit (j : ℕ) (hj : j < 128) :
      ((x &&& (1#128 <<< 127) >>> j) != 0) = x.getLsbD (127 - j) := by
    have hone : (1#128 <<< 127) >>> j = BitVec.twoPow 128 (127 - j) := by
      apply BitVec.eq_of_getLsbD_eq
      intro i hi
      simp only [BitVec.getLsbD_ushiftRight, BitVec.getLsbD_shiftLeft, BitVec.getLsbD_one,
        BitVec.getLsbD_twoPow]
      grind
    rw [hone, BitVec.and_twoPow]
    have hpos : BitVec.twoPow 128 (127 - j) ≠ 0#128 := by
      intro h
      have := congrArg (fun v ↦ BitVec.getLsbD v (127 - j)) h
      simp [BitVec.getLsbD_twoPow] at this
      omega
    split <;> simp [*]
  have hsplit : 2 ^ 127 = 2 ^ (127 - k) * 2 ^ k := by
    rw [← pow_add]
    congr 1
    omega
  have hge : 2 ^ (127 - k) ≤ x.toNat := by
    rw [hsplit] at hlow
    exact le_of_mul_le_mul_right hlow (Nat.two_pow_pos k)
  have hlt : x.toNat < 2 ^ (127 - k + 1) := by
    have hdouble : 2 ^ 128 = 2 ^ (127 - k + 1) * 2 ^ k := by
      rw [← pow_add]
      congr 1
      omega
    rw [hdouble] at hhigh
    exact lt_of_mul_lt_mul_right hhigh (Nat.zero_le _)
  have hfind : (List.range 128).find? (fun j ↦ (x &&& (1#128 <<< 127) >>> j) != 0) = some k := by
    rw [List.find?_range_eq_some]
    refine ⟨?_, List.mem_range.mpr hk, fun j hj ↦ ?_⟩
    · rw [hbit k hk, BitVec.getLsbD, Nat.testBit_eq_decide_div_mod_eq]
      have hone : x.toNat / 2 ^ (127 - k) = 1 :=
        Nat.div_eq_of_lt_le (by omega) (by rw [pow_succ] at hlt; omega)
      simp [hone]
    · have hclear : x.getLsbD (127 - j) = false :=
        Nat.testBit_lt_two_pow (lt_of_lt_of_le hlt (Nat.pow_le_pow_right two_pos (by omega)))
      rw [hbit j (by omega), hclear]
      rfl
  rw [uint128CountLeadingZeros, hfind]
  rfl

/-- The shift of `u128_normalize_round`. -/
def normalizeShift (signif : Uint128) : ℕ :=
  if signif = 0 then 128
  else if signif >>> 64 = 0 then 64 + builtinClz (uint128ToUint64 signif)
  else uint128CountLeadingZeros (signif >>> 64)

theorem toNat_high (n : Uint128) : (n >>> 64).toNat = n.toNat / 2 ^ 64 := by
  rw [BitVec.toNat_ushiftRight, Nat.shiftRight_eq_div_pow]

theorem high_eq_zero_iff (n : Uint128) : n >>> 64 = 0 ↔ n.toNat < 2 ^ 64 := by
  rw [← BitVec.toNat_inj, toNat_high]
  change n.toNat / 2 ^ 64 = 0 ↔ _
  omega

theorem normalizeShift_of_lt {n : Uint128} {k : ℕ} (hlow : 2 ^ 127 ≤ n.toNat * 2 ^ k)
    (hhigh : n.toNat * 2 ^ k < 2 ^ 128) (hn : n.toNat < 2 ^ 64) :
    64 ≤ k ∧ normalizeShift n = k := by
  have hzero : n ≠ 0 := by
    rintro rfl
    simp at hlow
  have hk : 64 ≤ k := by
    by_contra h
    have hpow : 2 ^ k ≤ 2 ^ 63 := Nat.pow_le_pow_right two_pos (by omega)
    have := Nat.mul_le_mul hn.le hpow
    have hlt : n.toNat * 2 ^ k < 2 ^ 64 * 2 ^ 63 :=
      lt_of_lt_of_le (Nat.mul_lt_mul_of_pos_right hn (Nat.two_pow_pos k))
        (Nat.mul_le_mul_left _ hpow)
    omega
  obtain ⟨j, rfl⟩ : ∃ j, k = 64 + j := ⟨k - 64, by omega⟩
  have hsplit : n.toNat * 2 ^ (64 + j) = 2 ^ 64 * (n.toNat * 2 ^ j) := by ring
  have hword : (uint128ToUint64 n).toNat = n.toNat := by
    rw [uint128ToUint64, BitVec.toNat_setWidth, Nat.mod_eq_of_lt hn]
  refine ⟨hk, ?_⟩
  rw [normalizeShift, if_neg hzero, if_pos ((high_eq_zero_iff n).mpr hn),
    builtinClz_eq (k := j) (by rw [hword]; omega) (by rw [hword]; omega)]

theorem normalizeShift_of_ge {n : Uint128} {k : ℕ} (hlow : 2 ^ 127 ≤ n.toNat * 2 ^ k)
    (hhigh : n.toNat * 2 ^ k < 2 ^ 128) (hn : 2 ^ 64 ≤ n.toNat) :
    k < 64 ∧ normalizeShift n = 64 + k := by
  have hzero : n ≠ 0 := by
    rintro rfl
    simp at hlow
  have hk : k < 64 := by
    by_contra h
    have hpow : 2 ^ 64 ≤ 2 ^ k := Nat.pow_le_pow_right two_pos (by omega)
    have := Nat.mul_le_mul hn hpow
    omega
  have hsplit : n.toNat / 2 ^ 64 * 2 ^ (64 + k) = 2 ^ 64 * (n.toNat / 2 ^ 64) * 2 ^ k := by ring
  have hle : 2 ^ 64 * (n.toNat / 2 ^ 64) ≤ n.toNat := Nat.mul_div_le _ _
  have hhalf : 2 ^ 127 ≤ 2 ^ 64 * (n.toNat / 2 ^ 64) * 2 ^ k := by
    have hpow : 2 ^ 127 = 2 ^ 64 * 2 ^ (63 - k) * 2 ^ k := by
      rw [← pow_add, ← pow_add]
      congr 1
      omega
    rw [hpow] at hlow ⊢
    have hge : 2 ^ 64 * 2 ^ (63 - k) ≤ n.toNat := le_of_mul_le_mul_right hlow (Nat.two_pow_pos k)
    have hquotient : 2 ^ (63 - k) ≤ n.toNat / 2 ^ 64 :=
      (Nat.le_div_iff_mul_le (by norm_num)).mpr (by rwa [Nat.mul_comm])
    exact Nat.mul_le_mul_right _ (Nat.mul_le_mul_left _ hquotient)
  have hclz : uint128CountLeadingZeros (n >>> 64) = 64 + k := by
    apply uint128CountLeadingZeros_eq (by omega)
    · rw [toNat_high, hsplit]
      exact hhalf
    · rw [toNat_high, hsplit]
      exact lt_of_le_of_lt (Nat.mul_le_mul_right _ hle) hhigh
  rw [normalizeShift, if_neg hzero, if_neg (mt (high_eq_zero_iff n).mp (by omega)), hclz]
  exact ⟨hk, rfl⟩

/-! The two paths, and the rounding at their end. -/

/-- The number of a significand of 128 bits. A carry is shifted back. -/
def roundedFloat (mode : RoundingMode) (signif : Uint128) (exp : BitVec 15) (sign : Bool) : Float80 :=
  let signif := u128ShiftRightRound mode signif 64 sign
  if signif >>> 64 ≠ 0 then .of (uint128ToUint64 (signif >>> 1)) (exp + 1) sign
  else .of (uint128ToUint64 signif) exp sign

section Paths

variable (mode : RoundingMode) (signif : Uint128) {exp : ℤ} (sign : Bool)

theorem u128NormalizeRound_low (h : exp - normalizeShift signif < -16382) :
    u128NormalizeRound mode signif exp sign
      = roundedFloat mode (signif <<< (exp + 16382).toNat) expDenormal sign := by
  have hshifted : (if exp > 1 - 0x3fff then signif <<< (exp - (1 - 0x3fff)).toNat else signif)
      = signif <<< (exp + 16382).toNat := by
    split
    · rw [show exp - (1 - 0x3fff) = exp + 16382 by omega]
    · have hzero : (exp + 16382).toNat = 0 := by omega
      rw [hzero, BitVec.shiftLeft_zero]
  have hlow : exp - normalizeShift signif < 1 - 0x3fff := by omega
  rw [normalizeShift] at hlow
  rw [u128NormalizeRound]
  simp only [hlow, if_true, hshifted]
  rfl

theorem u128NormalizeRound_high (h : -16382 ≤ exp - normalizeShift signif) :
    u128NormalizeRound mode signif exp sign
      = roundedFloat mode (signif <<< normalizeShift signif)
          (BitVec.ofInt 15 (exp - normalizeShift signif + 16383)) sign := by
  have hlow : ¬ exp - normalizeShift signif < 1 - 0x3fff := by omega
  rw [normalizeShift] at hlow ⊢
  rw [u128NormalizeRound]
  simp only [hlow, if_false]
  rfl

end Paths

section Rounded

variable (mode : RoundingMode) (signif : Uint128) (exp : BitVec 15) (sign : Bool)

theorem roundedFloat_of_lt (h : mode.shifted sign signif.toNat 64 < 2 ^ 64) :
    roundedFloat mode signif exp sign
      = .of (BitVec.ofNat 64 (mode.shifted sign signif.toNat 64)) exp sign := by
  have hword := toNat_u128ShiftRightRound mode signif sign (show 0 < 64 by norm_num) (by norm_num)
  have hhigh := (high_eq_zero_iff (u128ShiftRightRound mode signif 64 sign)).mpr (hword ▸ h)
  have hlow : uint128ToUint64 (u128ShiftRightRound mode signif 64 sign)
      = BitVec.ofNat 64 (mode.shifted sign signif.toNat 64) := by
    apply BitVec.eq_of_toNat_eq
    rw [uint128ToUint64, BitVec.toNat_setWidth, hword, BitVec.toNat_ofNat]
  rw [roundedFloat]
  simp only [hhigh, ne_eq, not_true, if_false, hlow]

theorem roundedFloat_of_eq (h : mode.shifted sign signif.toNat 64 = 2 ^ 64) :
    roundedFloat mode signif exp sign = .of (BitVec.ofNat 64 (2 ^ 63)) (exp + 1) sign := by
  have hword := toNat_u128ShiftRightRound mode signif sign (show 0 < 64 by norm_num) (by norm_num)
  have hhigh : u128ShiftRightRound mode signif 64 sign >>> 64 ≠ 0 :=
    mt (high_eq_zero_iff _).mp (by rw [hword, h]; norm_num)
  have hhalf : uint128ToUint64 (u128ShiftRightRound mode signif 64 sign >>> 1)
      = BitVec.ofNat 64 (2 ^ 63) := by
    apply BitVec.eq_of_toNat_eq
    rw [uint128ToUint64, BitVec.toNat_setWidth, BitVec.toNat_ushiftRight, hword, h]
    rfl
  rw [roundedFloat]
  simp only [hhigh, ne_eq, not_false_eq_true, if_true, hhalf]

theorem shifted_le_top : mode.shifted sign signif.toNat 64 ≤ 2 ^ 64 := by
  have h := mode.shifted_le sign signif.toNat 64
  have hlt := signif.isLt
  omega

end Rounded

theorem sign_u128NormalizeRound (mode : RoundingMode) (signif : Uint128) (exp : ℤ) (sign : Bool) :
    (u128NormalizeRound mode signif exp sign).sign = sign := by
  have hrounded (m : Uint128) (field : BitVec 15) : (roundedFloat mode m field sign).sign = sign := by
    rcases (shifted_le_top mode m sign).lt_or_eq with h | h
    · rw [roundedFloat_of_lt _ _ _ _ h, Float80.sign_of]
    · rw [roundedFloat_of_eq _ _ _ _ h, Float80.sign_of]
  by_cases h : exp - normalizeShift signif < -16382
  · rw [u128NormalizeRound_low _ _ _ h, hrounded]
  · rw [u128NormalizeRound_high _ _ _ (not_lt.mp h), hrounded]

/-! What numbers they are. -/

section Values

variable {r : ℕ} {exp : BitVec 15} {sign : Bool}

theorem toNat_signif {r : ℕ} (hr : r < 2 ^ 64) : (BitVec.ofNat 64 r).toNat = r := by
  rw [BitVec.toNat_ofNat, Nat.mod_eq_of_lt hr]

theorem is_denormal_iff (hr : r < 2 ^ 64) (x : ℚ) :
    (Float80.of (BitVec.ofNat 64 r) expDenormal sign).Is (.finite x) ↔
      r < 2 ^ 63 ∧ Lib.Rounding.signed sign ((r : ℚ) * 2 ^ f80Format.least) = x := by
  have hne : expDenormal ≠ expSpecial := by decide
  have hplace : unbiasDenormal expDenormal - 63 = f80Format.least := by decide
  simp only [Float80.Is, f80IsSupported_iff, Float80.exp_of, Float80.signif_of, Float80.value,
    Float80.sign_of, toNat_signif hr, hplace, ne_eq, not_true, false_iff, not_le, hne,
    not_false_eq_true, true_and]
  rfl

theorem is_normal_iff {e : ℕ} (hr : r < 2 ^ 64) (he : exp.toNat = e) (hpos : 0 < e) (x : ℚ) :
    (Float80.of (BitVec.ofNat 64 r) exp sign).Is (.finite x) ↔
      2 ^ 63 ≤ r ∧ e ≠ 32767 ∧ Lib.Rounding.signed sign ((r : ℚ) * 2 ^ (e - 16446 : ℤ)) = x := by
  have hdenormal : exp ≠ expDenormal := by
    rintro rfl
    exact hpos.ne he
  have hspecial : exp = expSpecial ↔ e = 32767 := by
    rw [← BitVec.toNat_inj, he]
    rfl
  have hplace : unbiasDenormal exp - 63 = e - 16446 := by
    rw [unbiasDenormal, if_neg hdenormal, unbias]
    omega
  simp only [Float80.Is, f80IsSupported_iff, Float80.exp_of, Float80.signif_of, Float80.value,
    Float80.sign_of, toNat_signif hr, hplace, ne_eq, hdenormal, hspecial, not_false_eq_true,
    true_iff]
  rfl

theorem is_infinite_iff (hr : r < 2 ^ 64) (negative : Bool) :
    (Float80.of (BitVec.ofNat 64 r) exp sign).Is (.infinite negative) ↔
      exp = expSpecial ∧ r = 2 ^ 63 ∧ sign = negative := by
  have hne : expSpecial ≠ expDenormal := by decide
  have hsupported : f80IsSupported (.of (BitVec.ofNat 64 r) expSpecial sign) = true ↔ 2 ^ 63 ≤ r := by
    simp [f80IsSupported_iff, hne, toNat_signif hr]
  by_cases hexp : exp = expSpecial
  · subst hexp
    rw [Float80.Is, hsupported, Float80.sign_of]
    constructor
    · rintro ⟨hle, hinf, hsign⟩
      have hf := hsupported.mpr hle
      rw [f80Isinf_iff hf (Float80.exp_of _ _ _), Float80.signif_of, toNat_signif hr] at hinf
      exact ⟨rfl, hinf, hsign⟩
    · rintro ⟨-, rfl, hsign⟩
      refine ⟨le_rfl, ?_, hsign⟩
      rw [f80Isinf_iff (hsupported.mpr le_rfl) (Float80.exp_of _ _ _), Float80.signif_of,
        toNat_signif hr]
  · simp [Float80.Is, f80Isinf, hexp]

end Values

/-! When they are the ones the exact number is rounded to. -/

/-- The result that a number is rounded to. -/
def Rounds (mode : RoundingMode) (f : Float80) (x : ℚ) : Prop :=
  f.Is (f80Format.round mode.direction x)

theorem le_largest : (2 : ℚ) ^ (16383 : ℤ) ≤ f80Format.largest := by
  have htop : (2 : ℚ) ^ 63 ≤ 2 ^ f80Format.precision - 1 := by norm_num [f80Format]
  have hplace : (16383 : ℤ) = (63 : ℕ) + (f80Format.limit - f80Format.precision) := by decide
  rw [hplace, zpow_add₀ two_ne_zero, zpow_natCast]
  exact mul_le_mul_of_nonneg_right htop (zpow_pos two_pos _).le

theorem largest_eq : f80Format.largest = ((2 ^ 64 - 1 : ℕ) : ℚ) * 2 ^ ((32766 : ℕ) - 16446 : ℤ) := by
  have hplace : ((32766 : ℕ) - 16446 : ℤ) = f80Format.limit - f80Format.precision := by decide
  have htop : (2 : ℚ) ^ f80Format.precision - 1 = (2 ^ 64 - 1 : ℕ) := by norm_num [f80Format]
  rw [hplace, Format.largest, htop]

/-- A number that is not small is not rounded to a small one. -/
theorem le_of_rounds {mode : RoundingMode} {f : Float80} {x : ℚ} {sign : Bool} {a : ℤ}
    (hx : 2 ^ a ≤ x) (hlow : -16445 ≤ a) (hhigh : a ≤ 16383)
    (h : Rounds mode f (Lib.Rounding.signed sign x)) :
    f80Isinf f = true ∨ f.exp ≠ expSpecial ∧ 2 ^ a ≤ |f.value| := by
  have hunlimited := Lib.Rounding.Format.le_abs_unlimited (F := f80Format) mode.direction
    (by decide) sign hx hlow
  have hpos : 0 < x := lt_of_lt_of_le (zpow_pos two_pos a) hx
  rw [Rounds, Format.round] at h
  split at h
  · obtain ⟨-, hexp, hvalue⟩ := h
    rw [hvalue]
    exact .inr ⟨hexp, hunlimited⟩
  · rw [Format.overflow] at h
    split at h
    · exact .inl h.2.1
    · obtain ⟨-, hexp, hvalue⟩ := h
      have hlargest : (2 : ℚ) ^ a ≤ f80Format.largest :=
        le_trans (zpow_le_zpow_right₀ one_le_two hhigh) le_largest
      refine .inr ⟨hexp, ?_⟩
      rw [hvalue, Lib.Rounding.abs_signed]
      · exact hlargest
      · exact le_trans (zpow_pos two_pos a).le hlargest

/-- What rounding up adds at most, at 64 places. -/
def slack (mode : RoundingMode) (sign : Bool) : ℕ :=
  if mode = .roundToNearest then 2 ^ 63 else if mode.direction.away sign then 2 ^ 64 else 0

theorem quotient_lt_iff {mode : RoundingMode} {sign : Bool} {m : ℕ}
    (hm : ¬ (mode.direction.away sign = true ∧ 2 ^ 64 ∣ m)) :
    mode.direction.quotient sign m (2 ^ 64) < 2 ^ 63 ↔ m + slack mode sign < 2 ^ 127 := by
  have hcases := mode.direction.quotient_cases sign m (2 ^ 64)
  rw [Nat.dvd_iff_mod_eq_zero] at hm
  cases mode with
  | roundToNearest =>
    simp only [RoundingMode.direction, Direction.carries, slack, if_true, Nat.odd_iff] at hcases ⊢
    omega
  | roundChop =>
    simp [RoundingMode.direction, Direction.carries, slack, Direction.away] at hcases ⊢
    omega
  | _ =>
    cases sign <;>
      simp [RoundingMode.direction, Direction.carries, slack, Direction.away] at hcases hm ⊢ <;>
      omega

/-- The number whose significand, with the point behind the first bit, is `n`. -/
def scaled (sign : Bool) (n : ℕ) (exp : ℤ) : ℚ :=
  Lib.Rounding.signed sign ((n : ℚ) * 2 ^ (exp - 127))

section Denormal

variable {mode : RoundingMode} {sign : Bool}

/-- Multiples of the smallest number. -/
theorem round_denormal {m k : ℕ} (hk : 64 ≤ k) (hm : m < 2 ^ 128) :
    f80Format.round mode.direction (Lib.Rounding.signed sign
        ((m : ℚ) / (2 ^ k : ℕ) * 2 ^ f80Format.least)) =
      .finite (Lib.Rounding.signed sign
        ((mode.direction.quotient sign m (2 ^ k) : ℚ) * 2 ^ f80Format.least)) := by
  have hpow : 2 ^ 64 ≤ 2 ^ k := Nat.pow_le_pow_right two_pos hk
  have hlt : m < 2 ^ 64 * 2 ^ k := by omega
  have hquotient := mode.direction.quotient_le sign m (2 ^ k)
  have hdiv : m / 2 ^ k < 2 ^ 64 := Nat.div_lt_of_lt_mul (by rwa [Nat.mul_comm])
  apply Format.round_of_lt _ (Format.unlimited_of_lt _ _ _ (Nat.two_pow_pos k) hlt)
  exact Format.natCast_mul_zpow_lt (k := 65) (by omega) (by decide)

theorem scaled_denormal (n : ℕ) {exp : ℤ} (k : ℕ) (hk : exp - 127 = f80Format.least - k) :
    scaled sign n exp = Lib.Rounding.signed sign ((n : ℚ) / (2 ^ k : ℕ) * 2 ^ f80Format.least) := by
  rw [scaled, hk, zpow_sub₀ two_ne_zero, zpow_natCast, mul_div_assoc', div_mul_eq_mul_div]
  push_cast
  rfl

variable {signif : Uint128} {exp : ℤ}

theorem roundedFloat_denormal_iff {k : ℕ} (hk : 64 ≤ k)
    (hn : signif.toNat < 2 ^ 128 - 2 ^ 64 ∨ k = 64) :
    Rounds mode (roundedFloat mode signif expDenormal sign) (Lib.Rounding.signed sign
        ((signif.toNat : ℚ) / (2 ^ k : ℕ) * 2 ^ f80Format.least)) ↔
      mode.shifted sign signif.toNat 64 = mode.direction.quotient sign signif.toNat (2 ^ k) ∧
        mode.shifted sign signif.toNat 64 < 2 ^ 63 := by
  have hlt := signif.isLt
  have htop := shifted_le_top mode signif sign
  rw [Rounds, round_denormal hk signif.isLt]
  rcases htop.lt_or_eq with h | h
  · rw [roundedFloat_of_lt _ _ _ _ h, is_denormal_iff h, Lib.Rounding.signed_inj,
      Lib.Rounding.natCast_mul_zpow_inj, and_comm]
  · -- a carry out of 64 bits gives the smallest normal number
    have hshifted := mode.shifted_le sign signif.toNat 64
    have hquotient := mode.direction.quotient_cases sign signif.toNat (2 ^ k)
    obtain rfl : k = 64 := by omega
    have hone : (expDenormal + 1).toNat = 1 := by decide
    have hplace : ((1 : ℕ) - 16446 : ℤ) = f80Format.least := by decide
    rw [roundedFloat_of_eq _ _ _ _ h, is_normal_iff (by norm_num) hone one_pos, hplace,
      Lib.Rounding.signed_inj, Lib.Rounding.natCast_mul_zpow_inj]
    omega

theorem scaled_shift (sign : Bool) (n k : ℕ) (exp : ℤ) :
    scaled sign (n * 2 ^ k) (exp - k) = scaled sign n exp := by
  have hplace : exp - 127 = k + (exp - k - 127) := by ring
  rw [scaled, scaled, hplace, zpow_add₀ two_ne_zero, zpow_natCast]
  push_cast
  rw [mul_assoc]

/-- A number is small where its exponent is zero, or one after a carry. -/
theorem roundedFloat_denormal_lt (mode : RoundingMode) (signif : Uint128) (sign : Bool) :
    (roundedFloat mode signif expDenormal sign).exp ≠ expSpecial ∧
      |(roundedFloat mode signif expDenormal sign).value| < 2 ^ (-16381 : ℤ) := by
  have hbound (r : ℕ) (hr : r < 2 ^ 64) : (r : ℚ) * 2 ^ (-16445 : ℤ) < 2 ^ (-16381 : ℤ) :=
    Format.natCast_mul_zpow_lt (k := 64) hr (by norm_num)
  have hvalue (r : ℕ) (exp : BitVec 15) (hr : r < 2 ^ 64)
      (hexp : unbiasDenormal exp - 63 = -16445) :
      |(Float80.of (BitVec.ofNat 64 r) exp sign).value| < 2 ^ (-16381 : ℤ) := by
    rw [Float80.value, Float80.exp_of, Float80.signif_of, toNat_signif hr, hexp]
    refine lt_of_eq_of_lt (Lib.Rounding.abs_signed _ ?_) (hbound r hr)
    exact mul_nonneg (Nat.cast_nonneg r) (zpow_pos two_pos _).le
  rcases (shifted_le_top mode signif sign).lt_or_eq with h | h
  · rw [roundedFloat_of_lt _ _ _ _ h]
    exact ⟨by rw [Float80.exp_of]; decide, hvalue _ _ h (by decide)⟩
  · rw [roundedFloat_of_eq _ _ _ _ h]
    exact ⟨by rw [Float80.exp_of]; decide, hvalue _ _ (by norm_num) (by decide)⟩

theorem le_scaled {n : ℕ} {a : ℕ} (hn : 2 ^ a ≤ n) (exp : ℤ) :
    (2 : ℚ) ^ (a + exp - 127) ≤ (n : ℚ) * 2 ^ (exp - 127) := by
  have hsplit : (a : ℤ) + exp - 127 = a + (exp - 127) := by ring
  rw [hsplit, zpow_add₀ two_ne_zero, zpow_natCast]
  exact mul_le_mul_of_nonneg_right (by exact_mod_cast hn) (zpow_pos two_pos _).le

theorem rounds_low_iff (he : -16382 ≤ exp) (hlow : exp - normalizeShift signif < -16382) :
    Rounds mode (u128NormalizeRound mode signif exp sign) (scaled sign signif.toNat exp) ↔
      signif.toNat * 2 ^ (exp + 16382).toNat + slack mode sign < 2 ^ 127 ∧
        ¬ (mode.direction.away sign = true ∧ 2 ^ 64 ∣ signif.toNat * 2 ^ (exp + 16382).toNat) := by
  obtain ⟨g, rfl⟩ : ∃ g : ℕ, exp = g - 16382 := ⟨(exp + 16382).toNat, by omega⟩
  have hg : ((g : ℤ) - 16382 + 16382).toNat = g := by omega
  rw [u128NormalizeRound_low mode signif sign hlow, hg]
  by_cases hfit : signif.toNat * 2 ^ g < 2 ^ 128
  · have hword : (signif <<< g).toNat = signif.toNat * 2 ^ g := by
      rw [BitVec.toNat_shiftLeft, Nat.shiftLeft_eq, Nat.mod_eq_of_lt hfit]
    have hplace : (g : ℤ) - 16382 - g - 127 = f80Format.least - (64 : ℕ) := by
      change _ = (-16445 : ℤ) - 64
      omega
    rw [← scaled_shift sign _ g, ← hword, scaled_denormal _ 64 hplace,
      roundedFloat_denormal_iff le_rfl (.inr rfl), mode.shifted_eq_iff _ _ (by norm_num) (by norm_num)]
    constructor
    · rintro ⟨haway, hlt⟩
      rw [(mode.shifted_eq_iff _ _ (by norm_num) (by norm_num)).mpr haway,
        quotient_lt_iff haway] at hlt
      exact ⟨hlt, haway⟩
    · rintro ⟨hlt, haway⟩
      rw [(mode.shifted_eq_iff _ _ (by norm_num) (by norm_num)).mpr haway, quotient_lt_iff haway]
      exact ⟨haway, hlt⟩
  · -- bits are lost, and what is left is too small
    refine iff_of_false (fun h ↦ ?_) (fun h ↦ by omega)
    have hlarge := le_scaled (n := signif.toNat * 2 ^ g) (a := 128) (by omega) (-16382)
    rw [← scaled_shift sign _ g] at h
    have hexp : (g : ℤ) - 16382 - g = -16382 := by omega
    rw [hexp] at h
    obtain ⟨hspecial, hsmall⟩ := roundedFloat_denormal_lt mode (signif <<< g) sign
    rcases le_of_rounds hlarge (by norm_num) (by norm_num) h with hinf | ⟨-, hle⟩
    · exact hspecial (exp_of_f80Isinf hinf)
    · exact absurd (lt_of_le_of_lt hle hsmall) (by norm_num)

theorem adds_top_iff (mode : RoundingMode) (sign : Bool) {n : ℕ} (hn : n < 2 ^ 64) :
    mode.adds sign n 64 ↔ (mode = .roundToNearest ∧ 2 ^ 63 < n) ∨ mode.direction.away sign = true := by
  cases mode with
  | roundToNearest =>
    rw [RoundingMode.adds_nearest_iff _ _ (by norm_num) (by norm_num)]
    simp only [Direction.carries, RoundingMode.direction, Direction.away, Nat.odd_iff,
      Bool.false_eq_true, or_false, true_and]
    omega
  | _ => simp [RoundingMode.adds, RoundingMode.direction]

theorem carries_small_iff (mode : RoundingMode) (sign : Bool) {n k : ℕ} (hn : n < 2 ^ 64)
    (hk : 65 ≤ k) :
    mode.direction.carries sign n (2 ^ k) ↔ mode.direction.away sign = true ∧ n ≠ 0 := by
  have hpow : 2 ^ 65 ≤ 2 ^ k := Nat.pow_le_pow_right two_pos hk
  have hmod : n % 2 ^ k = n := Nat.mod_eq_of_lt (by omega)
  cases mode with
  | roundToNearest =>
    simp only [Direction.carries, RoundingMode.direction, Direction.away, hmod, Bool.false_eq_true,
      false_and, iff_false]
    rintro (h | ⟨h, -⟩) <;> omega
  | _ => simp [Direction.carries, RoundingMode.direction, hmod, Direction.away]

/-- With an exponent below those of the numbers nothing is shifted, as if the exponent were
the smallest one. -/
theorem rounds_below_iff (he : exp < -16382) (hn : signif.toNat < 2 ^ 128 - 2 ^ 64) :
    Rounds mode (u128NormalizeRound mode signif exp sign) (scaled sign signif.toNat exp) ↔
      (signif.toNat < 2 ^ 64 ∧ (mode = .roundToNearest → signif.toNat ≤ 2 ^ 63) ∧
        (mode.direction.away sign = true → signif.toNat ≠ 0)) ∨
      (mode = .roundToNearest ∧ exp = -16383 ∧ 2 ^ 64 < signif.toNat ∧ signif.toNat < 3 * 2 ^ 63) := by
  obtain ⟨d, rfl⟩ : ∃ d : ℕ, exp = -16383 - d := ⟨(-16383 - exp).toNat, by omega⟩
  have hzero : ((-16383 - d : ℤ) + 16382).toNat = 0 := by omega
  have hplace : (-16383 - d : ℤ) - 127 = f80Format.least - (65 + d : ℕ) := by
    change _ = (-16445 : ℤ) - (65 + d : ℕ)
    omega
  rw [u128NormalizeRound_low mode signif sign (by omega), hzero, BitVec.shiftLeft_zero,
    scaled_denormal _ (65 + d) hplace, roundedFloat_denormal_iff (by omega) (.inl hn)]
  generalize signif.toNat = n at *
  by_cases hsmall : n < 2 ^ 64
  · have hpow : 2 ^ 65 ≤ 2 ^ (65 + d) := Nat.pow_le_pow_right two_pos (by omega)
    have hdiv : n / 2 ^ 64 = 0 := by omega
    have hdiv' : n / 2 ^ (65 + d) = 0 := Nat.div_eq_of_lt (by omega)
    have hlast : ¬ (2 ^ 64 < n) := by omega
    have hcarries := carries_small_iff mode sign hsmall (show 65 ≤ 65 + d by omega)
    have hadds := adds_top_iff mode sign hsmall
    rw [RoundingMode.shifted, Direction.quotient, hdiv, hdiv']
    simp only [hadds, hcarries, hsmall, hlast, true_and, false_and, and_false, or_false]
    by_cases hnearest : mode = .roundToNearest
    · simp only [hnearest, RoundingMode.direction, Direction.away, true_and, Bool.false_eq_true,
        false_and, or_false, if_false, true_implies, false_implies, and_true]
      split <;> omega
    · simp only [hnearest, false_and, false_or, false_implies, true_and]
      by_cases haway : mode.direction.away sign = true
      · simp only [haway, true_and, true_implies, if_true]
        split <;> omega
      · simp [haway]
  · simp only [hsmall, false_and, false_or]
    have hpow : 2 ^ 65 ≤ 2 ^ (65 + d) := Nat.pow_le_pow_right two_pos (by omega)
    have hdiv : n / 2 ^ (65 + d) ≤ n / 2 ^ 65 := Nat.div_le_div_left hpow (by norm_num)
    have hideal := mode.direction.quotient_cases sign n (2 ^ (65 + d))
    cases mode with
    | roundToNearest =>
      have hshifted := RoundingMode.shifted_nearest sign n (show 0 < 64 by norm_num) (by norm_num)
      have hcases := Direction.nearestEven.quotient_cases sign n (2 ^ 64)
      simp only [Direction.carries, RoundingMode.direction, Nat.odd_iff] at hideal hcases
      rw [hshifted]
      simp only [RoundingMode.direction, true_and]
      rcases Nat.eq_zero_or_pos d with rfl | hpos
      · omega
      · have hpow' : 2 ^ 66 ≤ 2 ^ (65 + d) := Nat.pow_le_pow_right two_pos (by omega)
        have hdiv' : n / 2 ^ (65 + d) ≤ n / 2 ^ 66 := Nat.div_le_div_left hpow' (by norm_num)
        have hmod := Nat.mod_le n (2 ^ (65 + d))
        omega
    | roundChop =>
      simp [Direction.carries, RoundingMode.direction, Direction.away, RoundingMode.shifted,
        RoundingMode.adds] at hideal ⊢
      omega
    | _ =>
      cases sign <;> simp [Direction.carries, RoundingMode.direction, Direction.away,
        RoundingMode.shifted, RoundingMode.adds] at hideal ⊢ <;> omega

end Denormal

section Normal

variable {mode : RoundingMode} {sign : Bool} {signif : Uint128} {exp : ℤ}

theorem roundedFloat_normal_iff {field : BitVec 15} {e : ℕ} (he : field.toNat = e) (hpos : 0 < e)
    (hle : e ≤ 32766) (c : ℕ) :
    (roundedFloat mode signif field sign).Is
        (.finite (Lib.Rounding.signed sign ((c : ℚ) * 2 ^ (e - 16446 : ℤ)))) ↔
      2 ^ 63 ≤ c ∧ mode.shifted sign signif.toNat 64 = c ∧ ¬ (e = 32766 ∧ c = 2 ^ 64) := by
  rcases (shifted_le_top mode signif sign).lt_or_eq with h | h
  · rw [roundedFloat_of_lt _ _ _ _ h, is_normal_iff h he hpos, Lib.Rounding.signed_inj,
      Lib.Rounding.natCast_mul_zpow_inj]
    omega
  · have hfield : (field + 1).toNat = e + 1 := by
      rw [BitVec.toNat_add, he]
      exact Nat.mod_eq_of_lt (by change e + 1 < 2 ^ 15; omega)
    have hdouble : ((2 ^ 63 : ℕ) : ℚ) * 2 ^ ((e + 1 : ℕ) - 16446 : ℤ)
        = (2 ^ 64 : ℕ) * 2 ^ (e - 16446 : ℤ) := by
      have hplace : ((e + 1 : ℕ) - 16446 : ℤ) = (e - 16446) + 1 := by push_cast; ring
      rw [hplace, zpow_add_one₀ two_ne_zero]
      push_cast
      ring
    rw [roundedFloat_of_eq _ _ _ _ h, is_normal_iff (by norm_num) hfield (by omega), hdouble,
      Lib.Rounding.signed_inj, Lib.Rounding.natCast_mul_zpow_inj]
    omega

theorem toNat_field {e : ℤ} (hpos : 0 ≤ e) (hlt : e < 2 ^ 15) :
    (BitVec.ofInt 15 e).toNat = e.toNat := by
  rw [BitVec.toNat_ofInt]
  congr 1
  exact Int.emod_eq_of_lt hpos (by exact_mod_cast hlt)

/-- A significand that fits in 64 bits is shifted to its place. -/
theorem rounds_exact_iff {k : ℕ} (hlow : 2 ^ 127 ≤ signif.toNat * 2 ^ k)
    (hhigh : signif.toNat * 2 ^ k < 2 ^ 128) (hn : signif.toNat < 2 ^ 64) (he : -16382 ≤ exp - k)
    (he' : exp - k ≤ 16383) :
    Rounds mode (u128NormalizeRound mode signif exp sign) (scaled sign signif.toNat exp) ↔
      ¬ mode.direction.away sign = true := by
  obtain ⟨hk, hshift⟩ := normalizeShift_of_lt hlow hhigh hn
  obtain ⟨j, rfl⟩ : ∃ j, k = 64 + j := ⟨k - 64, by omega⟩
  have hsplit : signif.toNat * 2 ^ (64 + j) = 2 ^ 64 * (signif.toNat * 2 ^ j) := by ring
  have hword : (signif <<< (64 + j)).toNat = 2 ^ 64 * (signif.toNat * 2 ^ j) := by
    rw [BitVec.toNat_shiftLeft, Nat.shiftLeft_eq, Nat.mod_eq_of_lt hhigh, hsplit]
  obtain ⟨e, hexp⟩ : ∃ e : ℕ, exp - (64 + j : ℕ) + 16383 = e :=
    ⟨(exp - (64 + j : ℕ) + 16383).toNat, by omega⟩
  have hfield : (BitVec.ofInt 15 (exp - (64 + j : ℕ) + 16383)).toNat = e := by
    rw [toNat_field (by omega) (by omega), hexp, Int.toNat_natCast]
  have hplace : exp - (64 + j : ℕ) - 127 = (e - 16446 : ℤ) - (64 : ℕ) := by
    push_cast at hexp ⊢
    omega
  have hvalue : scaled sign signif.toNat exp = Lib.Rounding.signed sign
      (((signif.toNat * 2 ^ j : ℕ) : ℚ) * 2 ^ (e - 16446 : ℤ)) := by
    rw [← scaled_shift sign _ (64 + j), hsplit, scaled, hplace, zpow_sub₀ two_ne_zero, zpow_natCast]
    push_cast
    congr 1
    ring
  have hround := Format.round_of_lt (F := f80Format) mode.direction
    (Format.unlimited_exact (K := ℚ) mode.direction sign (n := signif.toNat * 2 ^ j)
      (q := e - 16446) (by change _ < 2 ^ 64; omega) (by change -16445 ≤ (e - 16446 : ℤ); omega))
    (Format.natCast_mul_zpow_lt (k := 64) (by omega)
      (by change (64 : ℤ) + (e - 16446) ≤ 16384; omega))
  rw [u128NormalizeRound_high _ _ _ (by rw [hshift]; exact he), hshift, Rounds, hvalue, hround,
    roundedFloat_normal_iff hfield (by omega) (by omega), hword,
    RoundingMode.shifted_two_pow_mul _ _ (by norm_num) (by norm_num)]
  cases mode.direction.away sign
  · simp only [Bool.false_eq_true, if_false, Nat.add_zero, true_and, not_false_eq_true, iff_true]
    omega
  · simp

theorem round_zero (mode : RoundingMode) (sign : Bool) (exp : ℤ) :
    f80Format.round mode.direction (scaled sign 0 exp) = .finite 0 := by
  have hx : scaled sign 0 exp = 0 := by
    rw [scaled, Nat.cast_zero, zero_mul, Lib.Rounding.signed_zero]
  rw [hx, Format.round, Format.unlimited_zero, if_pos]
  rw [abs_zero]
  exact zpow_pos two_pos _

/-- Zero with an exponent that is not small gets one that is not zero. -/
theorem not_rounds_zero (hn : signif.toNat = 0) (he : -16254 ≤ exp) (he' : exp ≤ 16447) :
    ¬ Rounds mode (u128NormalizeRound mode signif exp sign) (scaled sign signif.toNat exp) := by
  have hzero : signif = 0 := BitVec.eq_of_toNat_eq hn
  have hshift : normalizeShift signif = 128 := by rw [normalizeShift, if_pos hzero]
  have hsmall : mode.shifted sign 0 64 ≤ 1 := mode.shifted_le sign 0 64
  have hword : (signif <<< 128).toNat = 0 := by
    rw [BitVec.toNat_shiftLeft, hn, Nat.zero_shiftLeft, Nat.zero_mod]
  have hfield : (BitVec.ofInt 15 (exp - (128 : ℕ) + 16383)).toNat
      = (exp - (128 : ℕ) + 16383).toNat := toNat_field (by omega) (by omega)
  rw [u128NormalizeRound_high _ _ _ (by rw [hshift]; omega), hshift, Rounds, hn, round_zero,
    roundedFloat_of_lt _ _ _ _ (by rw [hword]; omega), hword,
    is_normal_iff (by omega) hfield (by omega)]
  rintro ⟨hlarge, -⟩
  omega

/-- What is left of a significand that is shifted 64 places too far. -/
def remains (n : ℕ) : ℕ := n * 2 ^ (128 - n.size) % 2 ^ 64

/-- The exponents at which what is left is what the limit gives. -/
def OverflowGuard (mode : RoundingMode) (sign : Bool) (n : ℕ) (exp : ℤ) : Prop :=
  let away := mode.direction.away sign = true
  let r := remains n + if mode.direction.away sign then 1 else 0
  let e := exp - (128 - n.size : ℕ)
  ((mode = .roundToNearest ∨ away) ∧ ((e = 16448 ∧ r = 2 ^ 63) ∨ (e = 16447 ∧ r = 2 ^ 64))) ∨
    (¬ (mode = .roundToNearest ∨ away) ∧ e = 16447 ∧ r = 2 ^ 64 - 1)

theorem shifted_remains (mode : RoundingMode) (sign : Bool) {k : ℕ}
    (hk : 128 - signif.toNat.size = k) :
    mode.shifted sign (signif <<< (64 + k)).toNat 64
      = remains signif.toNat + if mode.direction.away sign then 1 else 0 := by
  have hword : (signif <<< (64 + k)).toNat = 2 ^ 64 * remains signif.toNat := by
    have hsplit : signif.toNat * 2 ^ (64 + k) = 2 ^ 64 * (signif.toNat * 2 ^ k) := by ring
    rw [BitVec.toNat_shiftLeft, Nat.shiftLeft_eq, hsplit, remains, hk]
    exact Nat.mul_mod_mul_left (2 ^ 64) _ (2 ^ 64)
  rw [hword, RoundingMode.shifted_two_pow_mul _ _ (by norm_num) (by norm_num)]

theorem value_of_field {field : BitVec 15} {e r : ℕ} (he : field.toNat = e) (hpos : 0 < e)
    (hr : r < 2 ^ 64) :
    |(Float80.of (BitVec.ofNat 64 r) field sign).value| = (r : ℚ) * 2 ^ (e - 16446 : ℤ) := by
  have hdenormal : field ≠ expDenormal := by
    rintro rfl
    exact hpos.ne he
  have hplace : unbiasDenormal field - 63 = e - 16446 := by
    rw [unbiasDenormal, if_neg hdenormal, unbias]
    omega
  rw [Float80.value, Float80.exp_of, Float80.signif_of, toNat_signif hr, hplace]
  exact Lib.Rounding.abs_signed _ (mul_nonneg (Nat.cast_nonneg r) (zpow_pos two_pos _).le)

theorem roundedFloat_normal_le (mode : RoundingMode) (signif : Uint128) (sign : Bool)
    {field : BitVec 15} {e : ℕ} (he : field.toNat = e) (hpos : 0 < e) (hle : e ≤ 32765) :
    (roundedFloat mode signif field sign).exp ≠ expSpecial ∧
      |(roundedFloat mode signif field sign).value| ≤ 2 ^ (64 + (e - 16446) : ℤ) := by
  have hspecial {f : BitVec 15} (hf : f.toNat < 32767) : f ≠ expSpecial := by
    rintro rfl
    exact absurd hf (lt_irrefl _)
  rcases (shifted_le_top mode signif sign).lt_or_eq with h | h
  · rw [roundedFloat_of_lt _ _ _ _ h, value_of_field he hpos h, Float80.exp_of]
    exact ⟨hspecial (by omega), (Format.natCast_mul_zpow_lt (k := 64) h le_rfl).le⟩
  · have hfield : (field + 1).toNat = e + 1 := by
      rw [BitVec.toNat_add, he]
      exact Nat.mod_eq_of_lt (by change e + 1 < 2 ^ 15; omega)
    rw [roundedFloat_of_eq _ _ _ _ h, value_of_field hfield (by omega) (by norm_num), Float80.exp_of]
    refine ⟨hspecial (by omega), le_of_eq ?_⟩
    rw [Nat.cast_pow, ← zpow_natCast, Nat.cast_ofNat, ← zpow_add₀ two_ne_zero]
    congr 1
    push_cast
    ring

theorem not_rounds_of_small {a : ℤ} {k : ℕ} (hn : 2 ^ 127 ≤ signif.toNat * 2 ^ k)
    (ha : exp - k = a) (hlow : -16318 ≤ a) (hhigh : a ≤ 16383) :
    ¬ Rounds mode (roundedFloat mode (signif <<< (64 + k))
        (BitVec.ofInt 15 (exp - (64 + k : ℕ) + 16383)) sign) (scaled sign signif.toNat exp) := by
  intro h
  have hlarge := le_scaled (n := signif.toNat * 2 ^ k) (a := 127) hn (exp - k)
  rw [← scaled_shift sign _ k] at h
  rw [ha] at hlarge h
  have hplace : ((127 : ℕ) : ℤ) + a - 127 = a := by push_cast; ring
  rw [hplace] at hlarge
  have hfield : (BitVec.ofInt 15 (exp - (64 + k : ℕ) + 16383)).toNat
      = (exp - (64 + k : ℕ) + 16383).toNat := toNat_field (by omega) (by omega)
  obtain ⟨hspecial, hsmall⟩ := roundedFloat_normal_le mode (signif <<< (64 + k)) sign hfield
    (by omega) (by omega)
  rcases le_of_rounds hlarge (by omega) hhigh h with hinf | ⟨-, hle⟩
  · exact hspecial (exp_of_f80Isinf hinf)
  · have hlt := (zpow_le_zpow_iff_right₀ one_lt_two).mp (le_trans hle hsmall)
    omega

theorem round_of_limit (mode : RoundingMode) (sign : Bool) {n : ℕ} {exp : ℤ} (hn : 2 ^ 127 ≤ n)
    (he : 16384 ≤ exp) :
    f80Format.round mode.direction (scaled sign n exp)
      = f80Format.overflow mode.direction sign := by
  have hle : (2 : ℚ) ^ f80Format.limit ≤ (n : ℚ) * 2 ^ (exp - 127) := by
    refine le_trans (zpow_le_zpow_right₀ one_le_two ?_) (le_scaled hn exp)
    change (16384 : ℤ) ≤ 127 + exp - 127
    omega
  exact Format.round_of_ge _ (lt_of_lt_of_le (zpow_pos two_pos _) hle)
    (Format.le_abs_unlimited _ (by decide) sign hle (by decide))

/-- Numbers above the limit. -/
theorem rounds_overflow_iff {field : BitVec 15} {e : ℕ} (he : field.toNat = e) :
    (roundedFloat mode signif field sign).Is (f80Format.overflow mode.direction sign) ↔
      let away := mode.direction.away sign = true
      let r := mode.shifted sign signif.toNat 64
      ((mode = .roundToNearest ∨ away) ∧ ((e = 32767 ∧ r = 2 ^ 63) ∨ (e = 32766 ∧ r = 2 ^ 64))) ∨
        (¬ (mode = .roundToNearest ∨ away) ∧ e = 32766 ∧ r = 2 ^ 64 - 1) := by
  have hnearest : mode.direction = .nearestEven ↔ mode = .roundToNearest := by
    cases mode <;> simp [RoundingMode.direction]
  have hlt : e < 2 ^ 15 := he ▸ field.isLt
  have hspecial : field = expSpecial ↔ e = 32767 := by
    rw [← BitVec.toNat_inj, he]
    rfl
  have hspecial' : field + 1 = expSpecial ↔ e = 32766 := by
    rw [← BitVec.toNat_inj, BitVec.toNat_add, he]
    change (e + 1) % 2 ^ 15 = 32767 ↔ _
    omega
  simp only [Format.overflow, hnearest]
  by_cases hinf : mode = .roundToNearest ∨ mode.direction.away sign = true
  · simp only [hinf, if_true, true_and, not_true, false_and, or_false]
    rcases (shifted_le_top mode signif sign).lt_or_eq with h | h
    · rw [roundedFloat_of_lt _ _ _ _ h, is_infinite_iff h, hspecial]
      simp only [and_true]
      omega
    · rw [roundedFloat_of_eq _ _ _ _ h, is_infinite_iff (by norm_num), hspecial', h]
      simp only [and_true]
      omega
  · simp only [hinf, if_false, false_and, not_false_eq_true, true_and, false_or]
    have hadds : ¬ mode.adds sign signif.toNat 64 := by
      cases mode <;> simp_all [RoundingMode.adds]
    have hr : mode.shifted sign signif.toNat 64 < 2 ^ 64 := by
      have := signif.isLt
      rw [RoundingMode.shifted, if_neg hadds]
      omega
    have hbelow (q : ℤ) (hq : 64 + q ≤ 16383) :
        (mode.shifted sign signif.toNat 64 : ℚ) * 2 ^ q ≠ f80Format.largest :=
      (lt_of_lt_of_le (Format.natCast_mul_zpow_lt (k := 64) hr hq) le_largest).ne
    rw [roundedFloat_of_lt _ _ _ _ hr]
    rcases Nat.eq_zero_or_pos e with rfl | hpos
    · have hfield : field = expDenormal := BitVec.eq_of_toNat_eq he
      rw [hfield, is_denormal_iff hr, Lib.Rounding.signed_inj]
      exact iff_of_false (fun h ↦ hbelow _ (by decide) h.2) (fun h ↦ by omega)
    rw [is_normal_iff hr he hpos, Lib.Rounding.signed_inj]
    by_cases hlast : e = 32766
    · rw [hlast, largest_eq, Lib.Rounding.natCast_mul_zpow_inj]
      omega
    · refine iff_of_false (fun h ↦ hbelow _ ?_ h.2.2) (fun h ↦ hlast h.1)
      omega

/-- A significand of more than 64 bits is right where what is left of it happens to be what
the limit gives. -/
theorem rounds_far_iff (hn : 2 ^ 64 ≤ signif.toNat)
    (he : -16382 ≤ exp - normalizeShift signif) (he' : exp ≤ 32767) :
    Rounds mode (u128NormalizeRound mode signif exp sign) (scaled sign signif.toNat exp) ↔
      OverflowGuard mode sign signif.toNat exp := by
  obtain ⟨hlow, hhigh⟩ := leading_bounds (n := signif.toNat) (by omega) signif.isLt
  generalize hk : 128 - signif.toNat.size = k at hlow hhigh
  obtain ⟨hk64, hshift⟩ := normalizeShift_of_ge hlow hhigh hn
  rw [hshift] at he
  rw [u128NormalizeRound_high _ _ _ (by rw [hshift]; exact he), hshift, OverflowGuard, hk]
  by_cases hsmall : exp - k ≤ 16383
  · refine iff_of_false (not_rounds_of_small hlow rfl (by omega) hsmall) ?_
    rintro (⟨-, ⟨h, -⟩ | ⟨h, -⟩⟩ | ⟨-, h, -⟩) <;> omega
  · have hround := round_of_limit mode sign hlow (show 16384 ≤ exp - k by omega)
    rw [scaled_shift] at hround
    rw [Rounds, hround, rounds_overflow_iff rfl, shifted_remains _ _ hk]
    have hfield : (BitVec.ofInt 15 (exp - (64 + k : ℕ) + 16383)).toNat
        = ((exp - (64 + k : ℕ) + 16383) % 32768).toNat := BitVec.toNat_ofInt _
    simp only [hfield]
    generalize remains signif.toNat + (if mode.direction.away sign = true then 1 else 0) = r
    have hinfinite : ((exp - (64 + k : ℕ) + 16383) % 32768).toNat = 32767 ↔ exp - k = 16448 := by
      omega
    have hlargest : ((exp - (64 + k : ℕ) + 16383) % 32768).toNat = 32766 ↔ exp - k = 16447 := by
      omega
    rw [hinfinite, hlargest]

end Normal

/-! When `u128_normalize_round` rounds. -/

/-- The significand is kept where it is shifted no further than to the exponent of the
denormal numbers, and loses no more than it should. Above them it must fit in 64 bits, and
no direction away from zero keeps it. -/
def NormalizeGuard (mode : RoundingMode) (sign : Bool) (n : ℕ) (exp : ℤ) : Prop :=
  let away := mode.direction.away sign = true
  let m := n * 2 ^ (exp + 16382).toNat
  (-16382 ≤ exp ∧ (n = 0 → exp < -16254) ∧ m + slack mode sign < 2 ^ 127 ∧
    ¬ (away ∧ 2 ^ 64 ∣ m)) ∨
  (exp < -16382 ∧
    ((n < 2 ^ 64 ∧ (mode = .roundToNearest → n ≤ 2 ^ 63) ∧ (away → n ≠ 0)) ∨
      (mode = .roundToNearest ∧ exp = -16383 ∧ 2 ^ 64 < n ∧ n < 3 * 2 ^ 63))) ∨
  (-16382 ≤ exp ∧ n < 2 ^ 64 ∧ 2 ^ 127 ≤ m ∧ ¬ away) ∨
  (2 ^ 64 ≤ n ∧ OverflowGuard mode sign n exp)

theorem u128NormalizeRound_rounds_iff (mode : RoundingMode) (sign : Bool) (signif : Uint128)
    {exp : ℤ} (hn : exp < -16382 → signif.toNat < 2 ^ 128 - 2 ^ 64) (he : exp ≤ 32767)
    (hsmall : signif.toNat < 2 ^ 64 → exp ≤ 16447) :
    Rounds mode (u128NormalizeRound mode signif exp sign) (scaled sign signif.toNat exp) ↔
      NormalizeGuard mode sign signif.toNat exp := by
  have hnot_overflow (hlow : exp ≤ 16447 ∧ signif.toNat < 2 ^ 64 ∨
      exp - (128 - signif.toNat.size : ℕ) < 16447) :
      ¬ (2 ^ 64 ≤ signif.toNat ∧ OverflowGuard mode sign signif.toNat exp) := by
    rintro ⟨hge, ⟨-, ⟨h, -⟩ | ⟨h, -⟩⟩ | ⟨-, h, -⟩⟩ <;> omega
  unfold NormalizeGuard
  by_cases hbelow : exp < -16382
  · have hle : ¬ -16382 ≤ exp := by omega
    rw [rounds_below_iff hbelow (hn hbelow)]
    simp only [hle, hbelow, false_and, true_and, false_or, hnot_overflow (.inr (by omega)), or_false]
  have hle : -16382 ≤ exp := by omega
  obtain ⟨g, hg⟩ : ∃ g : ℕ, exp = g - 16382 := ⟨(exp + 16382).toNat, by omega⟩
  have hg' : (exp + 16382).toNat = g := by omega
  by_cases hzero : signif.toNat = 0
  · have hshift : normalizeShift signif = 128 := by
      rw [normalizeShift, if_pos (BitVec.eq_of_toNat_eq hzero)]
    by_cases hlow : exp < -16254
    · rw [rounds_low_iff hle (by rw [hshift]; omega)]
      simp [hle, hbelow, hlow, hzero]
    · have := hsmall (by omega)
      refine iff_of_false (not_rounds_zero hzero (by omega) (by omega)) ?_
      rintro (h | h | h | h)
      · exact hlow (h.2.1 hzero)
      · exact hbelow h.1
      · rw [hzero] at h
        simp at h
      · omega
  obtain ⟨hk, hk'⟩ := leading_bounds hzero signif.isLt
  generalize 128 - signif.toNat.size = k at hk hk' hnot_overflow
  by_cases hfit : signif.toNat < 2 ^ 64
  · obtain ⟨hk64, hshift⟩ := normalizeShift_of_lt hk hk' hfit
    have hnot := hnot_overflow (.inl ⟨hsmall hfit, hfit⟩)
    by_cases hlow : exp - k < -16382
    · have hm : signif.toNat * 2 ^ g < 2 ^ 127 := by
        have hpow := Nat.mul_le_mul_left signif.toNat
          (Nat.pow_le_pow_right two_pos (show g + 1 ≤ k by omega))
        rw [pow_succ, ← mul_assoc] at hpow
        omega
      rw [rounds_low_iff hle (by rw [hshift]; exact hlow)]
      simp only [hg', hle, hbelow, hzero, hnot, true_and, false_and, or_false, false_implies,
        not_le.mpr hm, and_false]
    · have hm : 2 ^ 127 ≤ signif.toNat * 2 ^ g :=
        hk.trans (Nat.mul_le_mul_left _ (Nat.pow_le_pow_right two_pos (by omega)))
      have hexp := hsmall hfit
      rw [rounds_exact_iff hk hk' hfit (by omega) (by omega)]
      have hm' : ¬ signif.toNat * 2 ^ g + slack mode sign < 2 ^ 127 := by omega
      simp only [hg', hle, hbelow, hnot, hfit, hm, hm', true_and, false_and, false_or, or_false,
        and_false]
  · obtain ⟨hk64, hshift⟩ := normalizeShift_of_ge hk hk' (by omega)
    have hge : 2 ^ 64 ≤ signif.toNat := by omega
    by_cases hlow : exp - (64 + k : ℕ) < -16382
    · rw [rounds_low_iff hle (by rw [hshift]; exact hlow)]
      simp only [hg', hle, hbelow, hzero, hfit, hnot_overflow (.inr (by omega)), true_and, false_and,
        and_false, false_or, or_false, false_implies]
    · have hm : ¬ signif.toNat * 2 ^ g + slack mode sign < 2 ^ 127 := by
        have := hk.trans (Nat.mul_le_mul_left signif.toNat
          (Nat.pow_le_pow_right two_pos (show k ≤ g by omega)))
        omega
      rw [rounds_far_iff hge (by rw [hshift]; omega) he]
      simp only [hg', hbelow, hfit, hm, hge, false_and, and_false, true_and, false_or]

end Isl.Emu
