import Isl.Emu.Float80Add
import Mathlib.Order.WithBot

/-!
The order of the numbers. It is the sign of a difference, which is lost where the addition
loses it.
-/

namespace Isl.Emu

open Lib.Rounding (Direction Format Rounded)

/-! Extended real values. -/

namespace Float80

/-- The infinities are at the ends. -/
def extended (f : Float80) : WithBot (WithTop ℚ) :=
  if f80Isinf f then if f.sign then ⊥ else ⊤
  else ((f.value : WithTop ℚ) : WithBot (WithTop ℚ))

variable {a b : Float80}

theorem extended_of_finite (ha : f80Isinf a = false) :
    a.extended = ((a.value : WithTop ℚ) : WithBot (WithTop ℚ)) := by
  rw [extended, ha, if_neg Bool.false_ne_true]

theorem extended_of_inf (ha : f80Isinf a = true) :
    a.extended = if a.sign then ⊥ else ⊤ := by
  rw [extended, if_pos ha]

theorem extended_lt_iff (ha : f80Isinf a = false) (hb : f80Isinf b = false) :
    a.extended < b.extended ↔ a.value < b.value := by
  rw [extended_of_finite ha, extended_of_finite hb, WithBot.coe_lt_coe, WithTop.coe_lt_coe]

theorem coe_lt_top (x : ℚ) : ((x : WithTop ℚ) : WithBot (WithTop ℚ)) < ⊤ :=
  WithBot.coe_lt_coe.mpr (WithTop.coe_lt_top x)

/-- A number is below another one of the other sign where it is the negative one. -/
theorem extended_lt_of_sign (hsign : a.sign ≠ b.sign) (hzero : a.units ≠ 0 ∨ b.units ≠ 0) :
    a.extended < b.extended ↔ a.sign = true := by
  have hpos : (0 : ℚ) < 2 ^ f80Format.least := zpow_pos two_pos _
  have hunits (f : Float80) : 0 ≤ (f.units : ℚ) * 2 ^ f80Format.least :=
    mul_nonneg (Nat.cast_nonneg _) hpos.le
  have hsum : 0 < (a.units : ℚ) * 2 ^ f80Format.least + b.units * 2 ^ f80Format.least := by
    rw [← add_mul]
    refine mul_pos ?_ hpos
    exact_mod_cast (by omega : 0 < a.units + b.units)
  have ha := hunits a
  have hb := hunits b
  cases hinf : f80Isinf a <;> cases hinf' : f80Isinf b
  · rw [extended_lt_iff hinf hinf', value_eq_units a, value_eq_units b]
    cases hs : a.sign <;> cases hs' : b.sign <;> simp_all <;> linarith
  all_goals
    simp only [extended, hinf, hinf', if_true, Bool.false_eq_true, if_false]
    cases hs : a.sign <;> cases hs' : b.sign <;> simp_all [coe_lt_top]

/-- Of two numbers of one sign the one with the larger exponent is further from zero. -/
theorem extended_lt_of_exp (ha : f80IsSupported a = true) (hb : f80IsSupported b = true)
    (hna : f80Isnan a = false) (hsign : a.sign = b.sign) (hexp : b.exp.toNat < a.exp.toNat) :
    (a.extended < b.extended ↔ a.sign = true) ∧ (b.extended < a.extended ↔ a.sign = false) := by
  have hb' : f80Isinf b = false := by
    apply f80Isinf_of_finite
    intro h
    rw [h, toNat_expSpecial] at hexp
    have := a.exp.isLt
    omega
  by_cases ha' : a.exp = expSpecial
  · have hia : f80Isinf a = true := (nan_or_inf ha ha').resolve_left (by simp [hna])
    rw [extended_of_inf hia, extended_of_finite hb']
    cases a.sign <;> simp [coe_lt_top]
  · have hlt : (b.units : ℚ) * 2 ^ f80Format.least < a.units * 2 ^ f80Format.least :=
      mul_lt_mul_of_pos_right (by exact_mod_cast units_lt ha hb hexp) (zpow_pos two_pos _)
    rw [extended_lt_iff (f80Isinf_of_finite ha') hb', extended_lt_iff hb' (f80Isinf_of_finite ha'),
      value_eq_units a, value_eq_units b, ← hsign]
    cases a.sign <;> simp [hlt, hlt.le]

theorem iszero_iff (ha : f80IsSupported a = true) : f80Iszero a = true ↔ a.units = 0 := by
  rw [f80Iszero, Bool.and_eq_true, beq_iff_eq, beq_iff_eq]
  constructor
  · rintro ⟨-, hsignif⟩
    rw [units, hsignif]
    exact Nat.zero_mul _
  · intro h
    have hsignif : a.signif.toNat = 0 := (Nat.mul_eq_zero.mp h).resolve_right (Nat.two_pow_pos _).ne'
    refine ⟨?_, BitVec.eq_of_toNat_eq hsignif⟩
    by_contra hne
    have := ((f80IsSupported_iff a).mp ha).mp hne
    omega

/-- Equal values have equal fields, but for the sign of zero. -/
theorem extended_inj (ha : f80IsSupported a = true) (hb : f80IsSupported b = true)
    (hna : f80Isnan a = false) (hnb : f80Isnan b = false) :
    a.extended = b.extended ↔ (f80Iszero a = true ∧ f80Iszero b = true) ∨
      (a.sign = b.sign ∧ a.exp = b.exp ∧ a.signif = b.signif) := by
  constructor
  · intro h
    have hlt : ¬ a.extended < b.extended := h.not_lt
    have hgt : ¬ b.extended < a.extended := h.not_gt
    by_cases hzero : a.units = 0 ∧ b.units = 0
    · exact .inl ⟨(iszero_iff ha).mpr hzero.1, (iszero_iff hb).mpr hzero.2⟩
    rw [not_and_or] at hzero
    have hsign : a.sign = b.sign := by
      by_contra hne
      rw [extended_lt_of_sign hne hzero] at hlt
      rw [extended_lt_of_sign (Ne.symm hne) hzero.symm] at hgt
      cases hs : a.sign <;> cases hs' : b.sign <;> simp_all
    have hexp : a.exp.toNat = b.exp.toNat := by
      rcases lt_trichotomy a.exp.toNat b.exp.toNat with hlt' | heq | hgt'
      · obtain ⟨h₁, h₂⟩ := extended_lt_of_exp hb ha hnb hsign.symm hlt'
        cases hs : b.sign <;> simp_all
      · exact heq
      · obtain ⟨h₁, h₂⟩ := extended_lt_of_exp ha hb hna hsign hgt'
        cases hs : a.sign <;> simp_all
    have hexp' : a.exp = b.exp := BitVec.eq_of_toNat_eq hexp
    refine .inr ⟨hsign, hexp', BitVec.eq_of_toNat_eq ?_⟩
    by_cases hspecial : a.exp = expSpecial
    · have hspecial' : b.exp = expSpecial := hexp' ▸ hspecial
      have hia := (nan_or_inf ha hspecial).resolve_left (by simp [hna])
      have hib := (nan_or_inf hb hspecial').resolve_left (by simp [hnb])
      rw [(f80Isinf_iff ha hspecial).mp hia, (f80Isinf_iff hb hspecial').mp hib]
    · have hvalue : a.value = b.value := by
        rw [extended_of_finite (f80Isinf_of_finite hspecial),
          extended_of_finite (f80Isinf_of_finite (hexp' ▸ hspecial))] at h
        exact WithTop.coe_injective (WithBot.coe_injective h)
      rw [value_eq_units, value_eq_units, hsign, Lib.Rounding.signed_inj,
        Lib.Rounding.natCast_mul_zpow_inj, units, units, hexp] at hvalue
      exact Nat.eq_of_mul_eq_mul_right (Nat.two_pow_pos _) hvalue
  · rintro (⟨hza, hzb⟩ | ⟨hsign, hexp, hsignif⟩)
    · have hextended {f : Float80} (hf : f80IsSupported f = true) (hz : f80Iszero f = true) :
          f.extended = ((0 : ℚ) : WithTop ℚ) := by
        rw [extended_of_finite (f80Isinf_of_iszero hz), value_eq_units, (iszero_iff hf).mp hz, Nat.cast_zero, zero_mul,
          Lib.Rounding.signed_zero]
      rw [hextended ha hza, hextended hb hzb]
    · rw [← of_fields a, ← of_fields b, hsign, hexp, hsignif]

end Float80

/-! Results that are supported. -/

/-- Whether a significand `g` places above the least one is rounded to a supported number. -/
def Kept (mode : RoundingMode) (n g : ℕ) : Prop :=
  if n * 2 ^ g < if n < 2 ^ 64 then 2 ^ 127 else 2 ^ 191 then
    n * 2 ^ g % 2 ^ 128 + slack mode false < 2 ^ 127 ∨
      2 ^ 128 ≤ n * 2 ^ g % 2 ^ 128 + slack mode false
  else n < 2 ^ 64 ∨ 2 ^ 63 ≤ remains n + if mode = .roundUp then 1 else 0

theorem shifted_lt_iff (mode : RoundingMode) (m c : ℕ) :
    mode.shifted false m 64 < 2 * c ↔ m + slack mode false < 2 ^ 64 * (2 * c) := by
  cases mode with
  | roundToNearest =>
    have hcases := Direction.nearestEven.quotient_cases false m (2 ^ 64)
    rw [RoundingMode.shifted_nearest _ _ (by norm_num) (by norm_num)]
    simp only [Direction.carries, Nat.odd_iff, slack, if_true] at hcases ⊢
    omega
  | _ =>
    simp only [RoundingMode.shifted, RoundingMode.adds, RoundingMode.direction, Direction.away, slack,
      reduceCtorEq, Bool.not_false, Bool.false_eq_true, if_true, if_false]
    omega

section Supported

variable {mode : RoundingMode} {signif : Uint128} {sign : Bool}

theorem supported_of_iff {r : ℕ} (hr : r < 2 ^ 64) (exp : BitVec 15) :
    f80IsSupported (.of (BitVec.ofNat 64 r) exp sign) = true ↔ (exp ≠ expDenormal ↔ 2 ^ 63 ≤ r) := by
  rw [f80IsSupported_iff, Float80.exp_of, Float80.signif_of, toNat_signif hr]

theorem supported_denormal_iff :
    f80IsSupported (roundedFloat mode signif expDenormal sign) = true ↔
      mode.shifted sign signif.toNat 64 < 2 ^ 63 ∨ mode.shifted sign signif.toNat 64 = 2 ^ 64 := by
  rcases (shifted_le_top mode signif sign).lt_or_eq with h | h
  · rw [roundedFloat_of_lt _ _ _ _ h, supported_of_iff h]
    simp only [ne_eq, not_true, false_iff]
    omega
  · rw [roundedFloat_of_eq _ _ _ _ h, supported_of_iff (by norm_num), h]
    simp

theorem supported_normal_iff {field : BitVec 15} {e : ℕ} (he : field.toNat = e) (hpos : 0 < e)
    (hle : e ≤ 32766) :
    f80IsSupported (roundedFloat mode signif field sign) = true ↔
      2 ^ 63 ≤ mode.shifted sign signif.toNat 64 := by
  have hnormal {f : BitVec 15} (hf : 0 < f.toNat) : f ≠ expDenormal := by
    rintro rfl
    exact absurd hf (lt_irrefl _)
  rcases (shifted_le_top mode signif sign).lt_or_eq with h | h
  · rw [roundedFloat_of_lt _ _ _ _ h, supported_of_iff h]
    simp only [ne_eq, hnormal (he ▸ hpos), not_false_eq_true, true_iff]
  · have hfield : (field + 1).toNat = e + 1 := by
      rw [BitVec.toNat_add, he]
      exact Nat.mod_eq_of_lt (by change e + 1 < 2 ^ 15; omega)
    rw [roundedFloat_of_eq _ _ _ _ h, supported_of_iff (by norm_num), h]
    exact iff_of_true (iff_of_true (hnormal (by omega)) le_rfl) (by norm_num)

/-- The assertion at the end of the addition. -/
theorem supported_iff {exp : ℤ} {g : ℕ} (hzero : signif.toNat = 0 → g = 0)
    (hexp : exp + 16382 = g ∨ exp = -16383 ∧ g = 0) (hle : exp ≤ 16446) :
    f80IsSupported (u128NormalizeRound mode signif exp false) = true ↔ Kept mode signif.toNat g := by
  have hplaces : (exp + 16382).toNat = g := by omega
  have hlow (h : exp - normalizeShift signif < -16382) :
      f80IsSupported (u128NormalizeRound mode signif exp false) = true ↔
        signif.toNat * 2 ^ g % 2 ^ 128 + slack mode false < 2 ^ 127 ∨
          2 ^ 128 ≤ signif.toNat * 2 ^ g % 2 ^ 128 + slack mode false := by
    have htop := shifted_le_top mode (signif <<< g) false
    have hlt := shifted_lt_iff mode (signif.toNat * 2 ^ g % 2 ^ 128) (2 ^ 62)
    have hlt' := shifted_lt_iff mode (signif.toNat * 2 ^ g % 2 ^ 128) (2 ^ 63)
    rw [u128NormalizeRound_low _ _ _ h, supported_denormal_iff, hplaces]
    rw [BitVec.toNat_shiftLeft, Nat.shiftLeft_eq] at htop ⊢
    omega
  by_cases hn : signif.toNat = 0
  · have hshift : normalizeShift signif = 128 := by
      rw [normalizeShift, if_pos (BitVec.eq_of_toNat_eq hn)]
    have hsmall : signif.toNat * 2 ^ g < if signif.toNat < 2 ^ 64 then 2 ^ 127 else 2 ^ 191 := by
      rw [hn]
      norm_num
    rw [hlow (by have := hzero hn; rw [hshift]; omega), Kept, if_pos hsmall]
  obtain ⟨hlead, hlead'⟩ := leading_bounds hn signif.isLt
  generalize hk : 128 - signif.toNat.size = k at hlead hlead'
  have hhigh (h : -16382 ≤ exp - normalizeShift signif) :
      f80IsSupported (u128NormalizeRound mode signif exp false) = true ↔
        2 ^ 63 ≤ mode.shifted false (signif <<< normalizeShift signif).toNat 64 := by
    have hshift := normalizeShift_ge signif
    rw [u128NormalizeRound_high _ _ _ h, supported_normal_iff (toNat_field (by omega) (by omega))
      (by omega) (by omega)]
  have hmono {i j : ℕ} (h : i ≤ j) : signif.toNat * 2 ^ i ≤ signif.toNat * 2 ^ j :=
    Nat.mul_le_mul_left _ (Nat.pow_le_pow_right two_pos h)
  by_cases hfit : signif.toNat < 2 ^ 64
  · obtain ⟨hk64, hshift⟩ := normalizeShift_of_lt hlead hlead' hfit
    by_cases h : exp - normalizeShift signif < -16382
    · have hsmall : signif.toNat * 2 ^ g < 2 ^ 127 := by
        have := hmono (show g + 1 ≤ k by omega)
        rw [pow_succ, ← mul_assoc] at this
        omega
      rw [hlow h, Kept, if_pos (by rwa [if_pos hfit])]
    · have hlarge : ¬ signif.toNat * 2 ^ g < 2 ^ 127 := by
        have := hmono (show k ≤ g by omega)
        omega
      have hkept : Kept mode signif.toNat g := by
        rw [Kept, if_neg (by rwa [if_pos hfit])]
        exact .inl hfit
      refine iff_of_true ((hhigh (not_lt.mp h)).mpr ?_) hkept
      rw [hshift, BitVec.toNat_shiftLeft, Nat.shiftLeft_eq, Nat.mod_eq_of_lt hlead']
      refine le_trans ?_ (Nat.le_add_right _ _)
      omega
  · obtain ⟨hk64, hshift⟩ := normalizeShift_of_ge hlead hlead' (not_lt.mp hfit)
    by_cases h : exp - normalizeShift signif < -16382
    · have hsmall : signif.toNat * 2 ^ g < 2 ^ 191 := by
        have := hmono (show g + 1 ≤ 64 + k by omega)
        rw [pow_succ, ← mul_assoc, pow_add, mul_left_comm] at this
        omega
      rw [hlow h, Kept, if_pos (by rwa [if_neg hfit])]
    · have hlarge : ¬ signif.toNat * 2 ^ g < 2 ^ 191 := by
        have := hmono (show 64 + k ≤ g by omega)
        rw [pow_add, mul_left_comm] at this
        omega
      have hkept : Kept mode signif.toNat g ↔ signif.toNat < 2 ^ 64 ∨
          2 ^ 63 ≤ remains signif.toNat + if mode = .roundUp then 1 else 0 := by
        rw [Kept, if_neg (by rwa [if_neg hfit])]
      rw [hhigh (not_lt.mp h), hshift, shifted_remains mode false hk, hkept]
      simp only [hfit, false_or, away_false_iff]

end Supported

/-! Signs of sums. The exponent of `a` is no smaller. -/

def sumWord (mode : RoundingMode) (a b : Float80) : ℕ :=
  a.signif.toNat * 2 ^ 64 + aligned mode b.signif.toNat (a.exp.toNat - b.exp.toNat)

def differenceWord (mode : RoundingMode) (a b : Float80) : ℕ :=
  a.signif.toNat * 2 ^ 64 - aligned mode b.signif.toNat (a.exp.toNat - b.exp.toNat)

/-- The low word of a difference is zero, and zero is what is returned. -/
def Cancels (mode : RoundingMode) (a b : Float80) : Prop :=
  a.sign ≠ b.sign ∧ differenceWord mode a b % 2 ^ 64 = 0

/-- A supported result comes out, with the sign of `a`. -/
def Survives (mode : RoundingMode) (a b : Float80) : Prop :=
  if a.sign = b.sign then
    f80Isinf a = false ∧
      if sumWord mode a b < 2 ^ 128 then Kept mode (sumWord mode a b) (a.exp.toNat - 1)
      else Kept mode (mode.shifted false (sumWord mode a b) 1) a.exp.toNat
  else differenceWord mode a b % 2 ^ 64 ≠ 0 ∧ Kept mode (differenceWord mode a b) (a.exp.toNat - 1)

theorem sign_checked_iff {mode : RoundingMode} {signif : Uint128} {exp : ℤ} {flipped v : Bool} :
    (checked (flipSign flipped (u128NormalizeRound mode signif exp false))).map (·.sign) = some v ↔
      f80IsSupported (u128NormalizeRound mode signif exp false) = true ∧ v = flipped := by
  rw [checked, f80IsSupported_flipSign]
  by_cases h : f80IsSupported (u128NormalizeRound mode signif exp false) = true
  · rw [if_pos h, Option.map_some, sign_flipSign, sign_u128NormalizeRound, Bool.xor_false]
    simp [h, eq_comm]
  · simp [h]

section Signs

variable {mode : RoundingMode} {a b : Float80} (ha : f80IsSupported a = true)
  (hb : f80IsSupported b = true) (hna : f80Isnan a = false)
  (hinf : ¬ (f80Isinf a = true ∧ f80Isinf b = true)) (hexp : b.exp.toNat ≤ a.exp.toNat)

theorem unbias_place (f : Float80) :
    unbias f.exp + 16382 = (f.exp.toNat - 1 : ℕ) ∨ unbias f.exp = -16383 ∧ f.exp.toNat - 1 = 0 := by
  rw [unbias]
  omega

theorem f80AddOrdered_of_not_nan : f80Isnan a = false → f80AddOrdered mode a b
    = f80AddFlipped mode (flipSign a.sign a) (flipSign a.sign b) a.sign := by
  intro h
  rw [f80AddOrdered, h, if_neg Bool.false_ne_true]

include ha

variable (mode) in
/-- The significand of an infinity is shifted away. -/
theorem f80AddFlipped_inf (flipped : Bool) (hia : f80Isinf a = true) (hsign : b.sign = false) :
    f80AddFlipped mode a b flipped = none := by
  have hexp := exp_of_f80Isinf hia
  have hsignif := (f80Isinf_iff ha hexp).mp hia
  have hword : (uint128FromUint64 a.signif <<< 64).toNat = 2 ^ 127 := by
    rw [toNat_wide, hsignif]
    norm_num
  have hkept {g : ℕ} (hg : 64 ≤ g) : ¬ Kept mode (2 ^ 127) g := by
    have hlarge : ¬ 2 ^ 127 * 2 ^ g < if 2 ^ 127 < 2 ^ 64 then 2 ^ 127 else 2 ^ 191 := by
      rw [if_neg (by norm_num), ← pow_add, not_lt]
      exact Nat.pow_le_pow_right two_pos (by omega)
    have hremains : remains (2 ^ 127) = 0 := by
      rw [remains, Nat.size_pow]
      norm_num
    rw [Kept, if_neg hlarge, hremains]
    split <;> norm_num
  have hsupported : ¬ f80IsSupported (u128NormalizeRound mode (uint128FromUint64 a.signif <<< 64)
      (unbias a.exp) false) = true := by
    have hunbias : unbias a.exp = 16384 := by
      rw [hexp]
      rfl
    rw [supported_iff (g := 32766) (by rw [hword]; norm_num) (by omega) (by omega), hword]
    exact hkept (by norm_num)
  have hresult : f80AddFlipped mode a b flipped = checked (flipSign flipped
      (u128NormalizeRound mode (uint128FromUint64 a.signif <<< 64) (unbias a.exp) false)) := by
    rw [f80AddFlipped]
    simp only [hsign, hia, Bool.not_false, if_true]
    rfl
  rw [hresult, checked, f80IsSupported_flipSign, if_neg hsupported]

include hb hna hexp

theorem sign_sum_iff (hsign : a.sign = b.sign) (v : Bool) :
    (f80AddOrdered mode a b).map (·.sign) = some v ↔ Survives mode a b ∧ v = a.sign := by
  have hpositive : (flipSign a.sign b).sign = false := by rw [sign_flipSign, hsign, Bool.xor_self]
  have hlt := a.exp.isLt
  have hsurvives : Survives mode a b ↔ f80Isinf a = false ∧
      if sumWord mode a b < 2 ^ 128 then Kept mode (sumWord mode a b) (a.exp.toNat - 1)
      else Kept mode (mode.shifted false (sumWord mode a b) 1) a.exp.toNat := by
    rw [Survives, if_pos hsign]
  rw [f80AddOrdered_of_not_nan hna, hsurvives]
  cases hia : f80Isinf a
  · have hzero (hn : a.signif.toNat = 0) : a.exp.toNat = 0 := by
      by_contra hne
      have := Float80.le_signif_of_normal ha hne
      omega
    obtain ⟨signif, exp, hresult, hcases⟩ := f80AddFlipped_add mode a.sign (a := flipSign a.sign a)
      hpositive (by rwa [f80Isinf_flipSign]) rfl
    rw [hresult, sign_checked_iff]
    simp only [exp_flipSign, signif_flipSign] at hcases
    have hplace := unbias_place a
    have hunbias : unbias a.exp = a.exp.toNat - 16383 := rfl
    rcases hcases with ⟨hfit, hword, rfl⟩ | ⟨hbig, hword, rfl⟩
    · rw [supported_iff (g := a.exp.toNat - 1) (by omega) (by omega) (by omega), hword,
        if_pos (show sumWord mode a b < 2 ^ 128 from hfit), sumWord]
      simp
    · have hlarge := shifted_one_of_overflow mode hbig
      have hpos : a.exp.toNat ≠ 0 := by
        intro h
        have hsmall := (Float80.units_of_denormal ha h)
        have hsmall' := (Float80.units_of_denormal hb (by omega))
        rw [h, Nat.zero_sub, aligned, if_pos rfl] at hbig
        omega
      rw [supported_iff (g := a.exp.toNat) (by omega) (by omega) (by omega), hword,
        if_neg (show ¬ sumWord mode a b < 2 ^ 128 from not_lt.mpr hbig), sumWord]
      simp
  · have hresult := f80AddFlipped_inf mode (a := flipSign a.sign a)
      (by rwa [f80IsSupported_flipSign]) a.sign (by rwa [f80Isinf_flipSign]) hpositive
    rw [hresult]
    simp

omit hb in
theorem sign_difference_iff (hsign : a.sign ≠ b.sign)
    (hinf : ¬ (f80Isinf a = true ∧ f80Isinf b = true)) (v : Bool) :
    (f80AddOrdered mode a b).map (·.sign) = some v ↔
      (Cancels mode a b ∧ v = false) ∨ (Survives mode a b ∧ v = a.sign) := by
  have hnegative : (flipSign a.sign b).sign = true := by
    rw [sign_flipSign]
    simpa using hsign
  have hinf' : ¬ (f80Isinf (flipSign a.sign a) = true ∧ f80Isinf (flipSign a.sign b) = true) := by
    rwa [f80Isinf_flipSign, f80Isinf_flipSign]
  have hlt := a.exp.isLt
  have hlt' := b.signif.isLt
  have hzero : f80Zero.sign = false := by decide
  have hcancels : Cancels mode a b ↔ differenceWord mode a b % 2 ^ 64 = 0 := by
    rw [Cancels, and_iff_right hsign]
  have hsurvives : Survives mode a b ↔ differenceWord mode a b % 2 ^ 64 ≠ 0 ∧
      Kept mode (differenceWord mode a b) (a.exp.toNat - 1) := by
    rw [Survives, if_neg hsign]
  rw [f80AddOrdered_of_not_nan hna, hcancels, hsurvives]
  rcases hexp.eq_or_lt with heq | hless
  · have hword : differenceWord mode a b % 2 ^ 64 = 0 := by
      rw [differenceWord, heq, Nat.sub_self, aligned, if_pos rfl]
      omega
    have hexp' : (flipSign a.sign a).exp = (flipSign a.sign b).exp := by
      rw [exp_flipSign, exp_flipSign]
      exact BitVec.eq_of_toNat_eq heq.symm
    rw [f80AddFlipped_equal mode a.sign hnegative hinf' hexp', Option.map_some, hzero, Option.some_inj, eq_comm]
    simp only [hword, ne_eq, not_true, false_and, or_false, true_and]
  · have hnormal := Float80.le_signif_of_normal ha (by omega)
    have hhalf := aligned_lt_half mode hlt' (show 0 < a.exp.toNat - b.exp.toNat by omega)
    obtain ⟨signif, hword, hresult⟩ := f80AddFlipped_sub mode a.sign (a := flipSign a.sign a)
      hnegative hinf'
      (by rw [exp_flipSign, exp_flipSign, signif_flipSign, signif_flipSign]; omega) rfl
    have hsame : (flipSign a.sign a).signif.toNat * 2 ^ 64 - aligned mode
        (flipSign a.sign b).signif.toNat ((flipSign a.sign a).exp.toNat - (flipSign a.sign b).exp.toNat)
        = differenceWord mode a b := by
      rw [exp_flipSign, exp_flipSign, signif_flipSign, signif_flipSign, differenceWord]
    have hplace := unbias_place a
    have hunbias : unbias a.exp = a.exp.toNat - 16383 := rfl
    have hpos : differenceWord mode a b ≠ 0 := by
      rw [differenceWord]
      omega
    rw [hsame] at hword hresult
    rw [hresult, exp_flipSign]
    by_cases hlow : differenceWord mode a b % 2 ^ 64 = 0
    · rw [if_pos hlow, Option.map_some, hzero, Option.some_inj, eq_comm]
      simp only [hlow, ne_eq, not_true, false_and, or_false, true_and]
    · rw [if_neg hlow, sign_checked_iff, supported_iff (g := a.exp.toNat - 1) (by omega) (by omega)
        (by omega), hword]
      simp only [hlow, ne_eq, not_false_eq_true, false_and, false_or, true_and]

end Signs

/-! When comparisons are right. -/

def LtRight (mode : RoundingMode) (a b : Float80) : Prop :=
  ∃ v, f80Lt mode a b = some v ∧
    (v = true ↔ f80Uncomparable a b = false ∧ a.extended < b.extended)

def EqRight (a b : Float80) : Prop :=
  f80Eq a b = true ↔ f80Uncomparable a b = false ∧ a.extended = b.extended

/-- A difference that cancels is no less than zero. -/
def LtGuard (mode : RoundingMode) (a b : Float80) : Prop :=
  f80Uncomparable a b ∨ (f80Isinf a ∧ f80Isinf b ∧ a.sign = b.sign) ∨
  (¬ (f80Iszero a ∧ f80Iszero b ∧ a.sign ≠ b.sign) ∧
    if a.exp < b.exp then
      (Cancels mode (f80Neg b) a ∧ ¬ a.extended < b.extended) ∨ Survives mode (f80Neg b) a
    else (Cancels mode a (f80Neg b) ∧ ¬ a.extended < b.extended) ∨ Survives mode a (f80Neg b))

theorem comparable_iff (a b : Float80) : f80Uncomparable a b = false ↔
    f80IsSupported a = true ∧ f80IsSupported b = true ∧ f80Isnan a = false ∧ f80Isnan b = false := by
  rw [f80Uncomparable]
  simp only [Bool.or_eq_false_iff, Bool.not_eq_false']
  tauto

theorem eqRight (a b : Float80) : EqRight a b := by
  unfold EqRight
  cases hun : f80Uncomparable a b
  swap
  · simp [f80Eq, hun]
  obtain ⟨ha, hb, hna, hnb⟩ := (comparable_iff a b).mp hun
  simp only [f80Eq, hun, Bool.false_eq_true, if_false, true_and, Float80.extended_inj ha hb hna hnb]
  have hzero (f : Float80) : f80Iszero f = true ↔ f.exp = expDenormal ∧ f.signif = 0 := by
    rw [f80Iszero, Bool.and_eq_true, beq_iff_eq, beq_iff_eq]
  cases hza : f80Iszero a
  · simp only [hza, Bool.false_eq_true, if_false, false_and, false_or, Bool.and_eq_true, beq_iff_eq,
      and_assoc]
  · -- the sign of `b` goes where `a` is zero
    obtain ⟨hexp, hsignif⟩ := (hzero a).mp hza
    have hpositive : f80Iszero (.of 0 expDenormal false) = true := by decide
    simp only [if_true, Float80.sign_of, Float80.exp_of, Float80.signif_of, Bool.and_eq_true,
      beq_iff_eq, true_and, hpositive, hexp, hsignif, hzero b, eq_comm (a := b.exp), eq_comm (a := b.signif)]
    tauto

section Less

variable {mode : RoundingMode} {a b : Float80} (ha : f80IsSupported a = true)
  (hb : f80IsSupported b = true) (hna : f80Isnan a = false)

include ha hb hna

theorem sign_ordered_iff (hexp : b.exp.toNat ≤ a.exp.toNat)
    (hinf : ¬ (f80Isinf a = true ∧ f80Isinf b = true ∧ a.sign ≠ b.sign)) (v : Bool) :
    (f80AddOrdered mode a b).map (·.sign) = some v ↔
      (Cancels mode a b ∧ v = false) ∨ (Survives mode a b ∧ v = a.sign) := by
  by_cases hsign : a.sign = b.sign
  · have hcancels : ¬ Cancels mode a b := fun h ↦ h.1 hsign
    rw [sign_sum_iff ha hb hna hexp hsign]
    simp only [hcancels, false_and, false_or]
  · exact sign_difference_iff ha hna hexp hsign (fun h ↦ hinf ⟨h.1, h.2, hsign⟩) v

/-- What is left of `a - b` has its sign. -/
theorem survives_sign (hexp : b.exp.toNat ≤ a.exp.toNat) (hzero : a.sign ≠ b.sign →
    a.units ≠ 0 ∨ b.units ≠ 0) (h : Survives mode a (f80Neg b)) :
    (a.extended < b.extended ↔ a.sign = true) ∧ (b.extended < a.extended ↔ a.sign = false) := by
  by_cases hsign : a.sign = b.sign
  · have hne : a.sign ≠ (f80Neg b).sign := by
      rw [sign_f80Neg, hsign]
      cases b.sign <;> decide
    rw [Survives, if_neg hne] at h
    rcases hexp.eq_or_lt with heq | hlt
    · refine absurd ?_ h.1
      rw [differenceWord, exp_f80Neg, heq, Nat.sub_self, aligned, if_pos rfl]
      omega
    · exact Float80.extended_lt_of_exp ha hb hna hsign hlt
  · refine ⟨Float80.extended_lt_of_sign hsign (hzero hsign), ?_⟩
    rw [Float80.extended_lt_of_sign (Ne.symm hsign) (hzero hsign).symm]
    cases hs : a.sign <;> cases hs' : b.sign <;> simp_all

end Less

theorem survives_neg (mode : RoundingMode) (a b : Float80) :
    Survives mode (f80Neg a) b ↔ Survives mode a (f80Neg b) := by
  have hsign : (!a.sign) = b.sign ↔ a.sign = !b.sign := by
    cases a.sign <;> cases b.sign <;> decide
  simp only [Survives, sumWord, differenceWord, exp_f80Neg, signif_f80Neg, sign_f80Neg, hsign,
    f80Isinf_f80Neg]

theorem f80Lt_ordered (mode : RoundingMode) {a b : Float80} (ha : f80IsSupported a = true)
    (hb : f80IsSupported b = true) :
    (f80Sub mode a b).map (·.sign) = if a.exp < b.exp then
        (f80AddOrdered mode (f80Neg b) a).map (·.sign)
      else (f80AddOrdered mode a (f80Neg b)).map (·.sign) := by
  have hb' : f80IsSupported (f80Neg b) = true := by rwa [f80IsSupported_f80Neg]
  rw [f80Sub, f80Add_ordered mode ha hb', exp_f80Neg]
  split <;> rfl

/-- A result that is the sign of what is left is right but where nothing is. -/
theorem exists_result_iff {result : Option Bool} {cancels survives less : Prop} {s : Bool}
    (hresult : ∀ v, result = some v ↔ (cancels ∧ v = false) ∨ (survives ∧ v = s))
    (hless : survives → (less ↔ s = true)) :
    (∃ v, result = some v ∧ (v = true ↔ less)) ↔ (cancels ∧ ¬ less) ∨ survives := by
  constructor
  · rintro ⟨v, hv, hiff⟩
    rcases (hresult v).mp hv with ⟨h, rfl⟩ | ⟨h, rfl⟩
    · exact .inl ⟨h, by simpa using hiff⟩
    · exact .inr h
  · rintro (⟨h, hnot⟩ | h)
    · exact ⟨false, (hresult false).mpr (.inl ⟨h, rfl⟩), by simpa using hnot⟩
    · exact ⟨s, (hresult s).mpr (.inr ⟨h, rfl⟩), (hless h).symm⟩

theorem f80Lt_zeros (mode : RoundingMode) {a b : Float80} (hun : f80Uncomparable a b = false)
    (hzero : f80Iszero a = true ∧ f80Iszero b = true ∧ a.sign ≠ b.sign) :
    f80Lt mode a b = some true := by
  have hinf := f80Isinf_of_iszero hzero.1
  have hne : (a.sign != b.sign) = true := bne_iff_ne.mpr hzero.2.2
  simp [f80Lt, hun, hinf, hzero.1, hzero.2.1, hne]

section Lt

variable (mode : RoundingMode) {a b : Float80} (hun : f80Uncomparable a b = false)
  (hinf : ¬ (f80Isinf a = true ∧ f80Isinf b = true ∧ a.sign = b.sign))
  (hzero : ¬ (f80Iszero a = true ∧ f80Iszero b = true ∧ a.sign ≠ b.sign))

include hun hinf hzero

/-- The sign of the difference. -/
theorem f80Lt_eq_some_iff (v : Bool) : f80Lt mode a b = some v ↔ if a.exp < b.exp then
      (Cancels mode (f80Neg b) a ∧ v = false) ∨ (Survives mode (f80Neg b) a ∧ v = !b.sign)
    else (Cancels mode a (f80Neg b) ∧ v = false) ∨ (Survives mode a (f80Neg b) ∧ v = a.sign) := by
  obtain ⟨ha, hb, hna, hnb⟩ := (comparable_iff a b).mp hun
  have hinf' : (f80Isinf a && f80Isinf b && a.sign == b.sign) = false := by
    rw [← Bool.not_eq_true, Bool.and_eq_true, Bool.and_eq_true, beq_iff_eq, and_assoc]
    exact hinf
  have hzero' : (f80Iszero a && f80Iszero b && a.sign != b.sign) = false := by
    rw [← Bool.not_eq_true, Bool.and_eq_true, Bool.and_eq_true, bne_iff_ne, and_assoc]
    exact hzero
  have hlt : f80Lt mode a b = (f80Sub mode a b).map (·.sign) := by
    rw [f80Lt, hun, hinf', hzero']
    simp only [Bool.false_eq_true, if_false]
  have hb' : f80IsSupported (f80Neg b) = true := by rwa [f80IsSupported_f80Neg]
  rw [hlt, f80Lt_ordered mode ha hb]
  by_cases hexp : a.exp < b.exp
  · have hnb' : f80Isnan (f80Neg b) = false := by rwa [f80Isnan_f80Neg]
    simp only [hexp, if_true]
    rw [sign_ordered_iff hb' ha hnb' (by rw [exp_f80Neg]; exact (BitVec.lt_def.mp hexp).le),
      sign_f80Neg]
    rw [f80Isinf_f80Neg, sign_f80Neg]
    rintro ⟨hib, hia, hsign⟩
    exact hinf ⟨hia, hib, by simpa using (Ne.symm hsign)⟩
  · simp only [hexp, if_false]
    rw [sign_ordered_iff ha hb' hna (by rw [exp_f80Neg]; exact not_lt.mp (mt BitVec.lt_def.mpr hexp))]
    rw [f80Isinf_f80Neg, sign_f80Neg]
    rintro ⟨hia, hib, hsign⟩
    exact hinf ⟨hia, hib, by simpa using hsign⟩

theorem ltRight_comparable_iff : LtRight mode a b ↔ LtGuard mode a b := by
  obtain ⟨ha, hb, hna, hnb⟩ := (comparable_iff a b).mp hun
  have hunits : a.sign ≠ b.sign → a.units ≠ 0 ∨ b.units ≠ 0 := by
    intro hsign
    rw [Float80.iszero_iff ha, Float80.iszero_iff hb] at hzero
    by_contra h
    rw [not_or, not_not, not_not] at h
    exact hzero ⟨h.1, h.2, hsign⟩
  have hguard : LtGuard mode a b ↔ if a.exp < b.exp then
      (Cancels mode (f80Neg b) a ∧ ¬ a.extended < b.extended) ∨ Survives mode (f80Neg b) a
      else (Cancels mode a (f80Neg b) ∧ ¬ a.extended < b.extended) ∨ Survives mode a (f80Neg b) := by
    simp only [LtGuard, hun, hinf, hzero, Bool.false_eq_true, false_or, not_false_eq_true, true_and]
  have hlt := f80Lt_eq_some_iff mode hun hinf hzero
  rw [LtRight, hguard, hun]
  simp only [true_and]
  by_cases hexp : a.exp < b.exp
  · simp only [hexp, if_true] at hlt ⊢
    refine exists_result_iff hlt fun h ↦ ?_
    have hunits' : b.sign ≠ a.sign → b.units ≠ 0 ∨ a.units ≠ 0 := fun hne ↦ (hunits hne.symm).symm
    rw [Bool.not_eq_true']
    exact (survives_sign hb ha hnb (BitVec.lt_def.mp hexp).le hunits'
      ((survives_neg mode b a).mp h)).2
  · simp only [hexp, if_false] at hlt ⊢
    exact exists_result_iff hlt fun h ↦
      (survives_sign ha hb hna (not_lt.mp (mt BitVec.lt_def.mpr hexp)) hunits h).1

end Lt

theorem ltRight_iff (mode : RoundingMode) (a b : Float80) : LtRight mode a b ↔ LtGuard mode a b := by
  cases hun : f80Uncomparable a b
  swap
  · refine iff_of_true ⟨false, ?_, ?_⟩ (.inl hun)
    · rw [f80Lt, if_pos hun]
    · simp [hun]
  obtain ⟨ha, hb, hna, hnb⟩ := (comparable_iff a b).mp hun
  by_cases hinf : f80Isinf a = true ∧ f80Isinf b = true ∧ a.sign = b.sign
  · refine iff_of_true ⟨false, ?_, ?_⟩ (.inr (.inl hinf))
    · simp [f80Lt, hun, hinf]
    · simp [Float80.extended_of_inf hinf.1, Float80.extended_of_inf hinf.2.1, hinf.2.2]
  by_cases hzero : f80Iszero a = true ∧ f80Iszero b = true ∧ a.sign ≠ b.sign
  · -- zeros of opposite signs
    have hextended := (Float80.extended_inj ha hb hna hnb).mpr (.inl ⟨hzero.1, hzero.2.1⟩)
    refine iff_of_false ?_ ?_
    · rintro ⟨v, hv, hiff⟩
      obtain rfl := Option.some.inj ((f80Lt_zeros mode hun hzero).symm.trans hv)
      exact (hiff.mp rfl).2.ne hextended
    · rintro (h | h | h)
      · rw [hun] at h
        cases h
      · exact hinf h
      · exact h.1 hzero
  exact ltRight_comparable_iff mode hun hinf hzero

/-- When an order and an equality are right, and then they are those of a linear order. -/
theorem f80Lt_iff (mode : RoundingMode) :
    (∀ a b, LtRight mode a b ∧ EqRight a b ↔ LtGuard mode a b) ∧
    (∀ a b, f80Uncomparable a b = false → LtGuard mode a b → LtGuard mode b a →
      (f80Lt mode a b = some true ∧ f80Eq a b = false ∧ f80Lt mode b a = some false) ∨
      (f80Lt mode a b = some false ∧ f80Eq a b = true ∧ f80Lt mode b a = some false) ∨
      (f80Lt mode a b = some false ∧ f80Eq a b = false ∧ f80Lt mode b a = some true)) ∧
    (∀ a b c, LtGuard mode a b → LtGuard mode b c → LtGuard mode a c →
      f80Lt mode a b = some true → f80Lt mode b c = some true → f80Lt mode a c = some true) := by
  refine ⟨fun a b ↦ ?_, fun a b hun hab hba ↦ ?_, fun a b c hab hbc hac hlt hlt' ↦ ?_⟩
  · rw [ltRight_iff, and_iff_left (eqRight a b)]
  · have hun' : f80Uncomparable b a = false := by
      rw [comparable_iff] at hun ⊢
      exact ⟨hun.2.1, hun.1, hun.2.2.2, hun.2.2.1⟩
    obtain ⟨v, hv, hiff⟩ := (ltRight_iff mode a b).mpr hab
    obtain ⟨w, hw, hiff'⟩ := (ltRight_iff mode b a).mpr hba
    have heq := eqRight a b
    unfold EqRight at heq
    simp only [hun, hun', true_and] at hiff hiff' heq
    rw [hv, hw]
    rcases lt_trichotomy a.extended b.extended with h | h | h
    · simp_all [h.ne, h.not_gt]
    · simp_all
    · simp_all [h.ne', h.not_gt]
  · obtain ⟨v, hv, hiff⟩ := (ltRight_iff mode a b).mpr hab
    obtain ⟨w, hw, hiff'⟩ := (ltRight_iff mode b c).mpr hbc
    obtain ⟨x, hx, hiff''⟩ := (ltRight_iff mode a c).mpr hac
    obtain rfl := Option.some.inj (hlt.symm.trans hv)
    obtain rfl := Option.some.inj (hlt'.symm.trans hw)
    obtain ⟨hun, hless⟩ := hiff.mp rfl
    obtain ⟨hun', hless'⟩ := hiff'.mp rfl
    have hun'' : f80Uncomparable a c = false := by
      rw [comparable_iff] at hun hun' ⊢
      exact ⟨hun.1, hun'.2.1, hun.2.2.1, hun'.2.2.2⟩
    rw [hx, hiff''.mpr ⟨hun'', hless.trans hless'⟩]

/-- The least numbers of either sign. -/
theorem f80Lt_iff_least :
    LtRight .roundToNearest (.of 1 0 true) (.of 1 0 false) ∧ EqRight (.of 1 0 true) (.of 1 0 false) := by
  have hsurvives : Survives .roundToNearest (.of 1 0 true) (f80Neg (.of 1 0 false)) := by
    unfold Survives Kept
    decide
  refine ((f80Lt_iff .roundToNearest).1 _ _).mpr (.inr (.inr ⟨by decide, ?_⟩))
  rw [if_neg (by decide)]
  exact .inr hsurvives

/-- Zeros of opposite signs are less than each other. -/
theorem not_ltRight_zeros : ¬ ∀ mode a b, LtRight mode a b ∧ EqRight a b := by
  intro h
  obtain ⟨v, hv, hiff⟩ := (h .roundToNearest (.of 0 0 true) (.of 0 0 false)).1
  have hlt : f80Lt .roundToNearest (.of 0 0 true) (.of 0 0 false) = some true := by decide
  have hequal := (Float80.extended_inj (a := .of 0 0 true) (b := .of 0 0 false) (by decide)
    (by decide) (by decide) (by decide)).mpr (.inl ⟨by decide, by decide⟩)
  obtain rfl := Option.some.inj (hlt.symm.trans hv)
  exact (hiff.mp rfl).2.ne hequal

end Isl.Emu
