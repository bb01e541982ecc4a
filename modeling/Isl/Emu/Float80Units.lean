import Isl.Emu.Float80Norm

/-!
Numbers counted in units of the smallest one, the sign that is flipped and flipped back,
and what the size of a result says about it.
-/

namespace Isl.Emu

open Lib.Rounding (Direction Format Rounded)

/-! Numbers in units of the smallest one. -/

namespace Float80

def units (f : Float80) : ℕ := f.signif.toNat * 2 ^ (f.exp.toNat - 1)

theorem value_eq_units (f : Float80) :
    f.value = Lib.Rounding.signed f.sign ((f.units : ℚ) * 2 ^ f80Format.least) := by
  have hplace : unbiasDenormal f.exp - 63 = (f.exp.toNat - 1 : ℕ) + f80Format.least := by
    change _ = _ + (-16445 : ℤ)
    by_cases h : f.exp = expDenormal
    · rw [h]
      rfl
    · have hpos : f.exp.toNat ≠ 0 := fun h' ↦ h (BitVec.eq_of_toNat_eq h')
      rw [unbiasDenormal, if_neg h, unbias]
      omega
  have hunits : (f.units : ℚ) * 2 ^ f80Format.least
      = f.signif.toNat * 2 ^ (unbiasDenormal f.exp - 63) := by
    rw [hplace, zpow_add₀ two_ne_zero, zpow_natCast, units, ← mul_assoc]
    push_cast
    rfl
  rw [hunits]
  rfl

variable {f : Float80} (hf : f80IsSupported f = true)

include hf

theorem units_of_denormal (h : f.exp.toNat = 0) : f.units = f.signif.toNat ∧ f.units < 2 ^ 63 := by
  have hexp : f.exp = expDenormal := BitVec.eq_of_toNat_eq h
  have hlt := mt ((f80IsSupported_iff f).mp hf).mpr (not_not_intro hexp)
  rw [units, h, Nat.zero_sub, pow_zero, Nat.mul_one]
  exact ⟨rfl, not_le.mp hlt⟩

theorem le_signif_of_normal (h : f.exp.toNat ≠ 0) : 2 ^ 63 ≤ f.signif.toNat :=
  ((f80IsSupported_iff f).mp hf).mp fun hexp ↦ h (by rw [hexp]; rfl)

end Float80

/-! Signs that are flipped, and flipped back. -/

def flipSign (flipped : Bool) (f : Float80) : Float80 := if flipped then f80Neg f else f

section Flip

variable (flipped : Bool) (f : Float80)

@[simp]
theorem exp_f80Neg : (f80Neg f).exp = f.exp := Float80.exp_of _ _ _

@[simp]
theorem signif_f80Neg : (f80Neg f).signif = f.signif := rfl

@[simp]
theorem sign_f80Neg : (f80Neg f).sign = !f.sign := Float80.sign_of _ _ _

@[simp]
theorem exp_flipSign : (flipSign flipped f).exp = f.exp := by
  cases flipped <;> simp [flipSign]

@[simp]
theorem signif_flipSign : (flipSign flipped f).signif = f.signif := by
  cases flipped <;> simp [flipSign]

@[simp]
theorem sign_flipSign : (flipSign flipped f).sign = (flipped ^^ f.sign) := by
  cases flipped <;> simp [flipSign]

@[simp]
theorem f80IsSupported_flipSign : f80IsSupported (flipSign flipped f) = f80IsSupported f := by
  simp only [f80IsSupported, exp_flipSign, signif_flipSign]

@[simp]
theorem f80Isinf_flipSign : f80Isinf (flipSign flipped f) = f80Isinf f := by
  simp only [f80Isinf, exp_flipSign, signif_flipSign]

@[simp]
theorem f80IsSupported_f80Neg : f80IsSupported (f80Neg f) = f80IsSupported f := by
  simp only [f80IsSupported, exp_f80Neg, signif_f80Neg]

@[simp]
theorem f80Isinf_f80Neg : f80Isinf (f80Neg f) = f80Isinf f := by
  simp only [f80Isinf, exp_f80Neg, signif_f80Neg]

@[simp]
theorem f80Isnan_f80Neg : f80Isnan (f80Neg f) = f80Isnan f := by
  simp only [f80Isnan, exp_f80Neg, signif_f80Neg]

theorem signed_xor (s t : Bool) (x : ℚ) :
    Lib.Rounding.signed (s ^^ t) x = Lib.Rounding.signed s (Lib.Rounding.signed t x) := by
  cases s <;> cases t <;> simp

theorem value_flipSign : (flipSign flipped f).value = Lib.Rounding.signed flipped f.value := by
  have hunits : (flipSign flipped f).units = f.units := by
    simp only [Float80.units, exp_flipSign, signif_flipSign]
  rw [Float80.value_eq_units, Float80.value_eq_units f, hunits, sign_flipSign, signed_xor]

theorem is_flipSign_finite {x : ℚ} :
    (flipSign flipped f).Is (.finite (Lib.Rounding.signed flipped x)) ↔ f.Is (.finite x) := by
  simp only [Float80.Is, f80IsSupported_flipSign, exp_flipSign, value_flipSign,
    Lib.Rounding.signed_inj]

end Flip

/-! Results that are small, and results that are shifted too far. -/

section Bounds

variable {mode : RoundingMode} {flipped : Bool} {f : Float80}

/-- A result of 64 bits is exact. -/
theorem rounds_flipSign_iff {n : ℕ} {q : ℤ} (hn : n < 2 ^ 64) (hq : -16445 ≤ q)
    (hq' : 64 + q ≤ 16384) :
    Rounds mode (flipSign flipped f) (Lib.Rounding.signed flipped ((n : ℚ) * 2 ^ q)) ↔
      f.Is (.finite ((n : ℚ) * 2 ^ q)) := by
  have hround := Format.round_of_lt (F := f80Format) mode.direction
    (Format.unlimited_exact (K := ℚ) mode.direction flipped hn hq)
    (Format.natCast_mul_zpow_lt (k := 64) hn hq')
  rw [Rounds, hround, is_flipSign_finite]

theorem not_rounds_of_lt {x : ℚ} {a : ℤ} (hexp : f.exp ≠ expSpecial) (hf : |f.value| < 2 ^ a)
    (hx : 2 ^ a ≤ x) (hlow : -16445 ≤ a) (hhigh : a ≤ 16383) :
    ¬ Rounds mode (flipSign flipped f) (Lib.Rounding.signed flipped x) := by
  intro h
  have habs : |(flipSign flipped f).value| = |f.value| := by
    rw [value_flipSign]
    cases flipped <;> simp
  rcases le_of_rounds hx hlow hhigh h with hinf | ⟨-, hle⟩
  · exact hexp (exp_flipSign flipped f ▸ exp_of_f80Isinf hinf)
  · exact absurd (lt_of_le_of_lt (habs ▸ hle) hf) (lt_irrefl _)

theorem le_units {n a : ℕ} (hn : 2 ^ a ≤ n) :
    (2 : ℚ) ^ (a - 16445 : ℤ) ≤ (n : ℚ) * 2 ^ f80Format.least := by
  have hsplit : (a - 16445 : ℤ) = a + f80Format.least := rfl
  rw [hsplit, zpow_add₀ two_ne_zero, zpow_natCast]
  exact mul_le_mul_of_nonneg_right (by exact_mod_cast hn) (zpow_pos two_pos _).le

theorem normalizeShift_ge (n : Uint128) : 64 ≤ normalizeShift n := by
  by_cases hzero : n = 0
  · rw [normalizeShift, if_pos hzero]
    norm_num
  · obtain ⟨hlow, hhigh⟩ := leading_bounds (fun h ↦ hzero (BitVec.eq_of_toNat_eq h)) n.isLt
    by_cases hn : n.toNat < 2 ^ 64
    · obtain ⟨hk, hshift⟩ := normalizeShift_of_lt hlow hhigh hn
      rwa [hshift]
    · obtain ⟨-, hshift⟩ := normalizeShift_of_ge hlow hhigh (not_lt.mp hn)
      rw [hshift]
      exact Nat.le_add_right _ _

variable (mode) (signif : Uint128) (sign : Bool) {exp : ℤ}

theorem u128NormalizeRound_le (he : exp ≤ 16446) (h : -16382 ≤ exp - normalizeShift signif) :
    (u128NormalizeRound mode signif exp sign).exp ≠ expSpecial ∧
      |(u128NormalizeRound mode signif exp sign).value| ≤ 2 ^ (exp - normalizeShift signif + 1) := by
  have hshift := normalizeShift_ge signif
  have hfield : (BitVec.ofInt 15 (exp - normalizeShift signif + 16383)).toNat
      = (exp - normalizeShift signif + 16383).toNat := toNat_field (by omega) (by omega)
  have hplace : (64 + ((exp - normalizeShift signif + 16383).toNat - 16446) : ℤ)
      = exp - normalizeShift signif + 1 := by omega
  have hle := roundedFloat_normal_le mode (signif <<< normalizeShift signif) sign hfield
    (by omega) (by omega)
  rwa [hplace, ← u128NormalizeRound_high _ _ _ h] at hle

/-- An infinity is not among the results. -/
theorem exp_u128NormalizeRound (he : exp ≤ 16446) :
    (u128NormalizeRound mode signif exp sign).exp ≠ expSpecial := by
  by_cases h : exp - normalizeShift signif < -16382
  · rw [u128NormalizeRound_low _ _ _ h]
    exact (roundedFloat_denormal_lt _ _ _).1
  · exact (u128NormalizeRound_le mode signif sign he (not_lt.mp h)).1

/-- A result with the exponent zero, or with a carry out of it. -/
theorem rounds_small_iff (n : ℕ) :
    Rounds mode (flipSign flipped (roundedFloat mode signif expDenormal false))
        (Lib.Rounding.signed flipped ((n : ℚ) * 2 ^ f80Format.least)) ↔
      (mode.shifted false signif.toNat 64 < 2 ^ 63 ∧ mode.shifted false signif.toNat 64 = n) ∨
        (mode.shifted false signif.toNat 64 = 2 ^ 64 ∧ n = 2 ^ 63) := by
  by_cases hfit : n < 2 ^ 64
  · rw [rounds_flipSign_iff hfit (by decide) (by decide)]
    rcases (shifted_le_top mode signif false).lt_or_eq with h | h
    · rw [roundedFloat_of_lt _ _ _ _ h, is_denormal_iff h, Lib.Rounding.signed_false,
        Lib.Rounding.natCast_mul_zpow_inj]
      omega
    · have hone : (expDenormal + 1).toNat = 1 := by decide
      have hplace : ((1 : ℕ) - 16446 : ℤ) = f80Format.least := by decide
      rw [roundedFloat_of_eq _ _ _ _ h, is_normal_iff (by norm_num) hone one_pos, hplace,
        Lib.Rounding.signed_false, Lib.Rounding.natCast_mul_zpow_inj]
      omega
  · obtain ⟨hexp, hlt⟩ := roundedFloat_denormal_lt mode signif false
    refine iff_of_false (not_rounds_of_lt hexp hlt (le_units (a := 64) (not_lt.mp hfit))
      (by norm_num) (by norm_num)) ?_
    omega

theorem not_rounds_far {n a : ℕ} (he : exp ≤ 16446) (h : -16382 ≤ exp - normalizeShift signif)
    (hn : 2 ^ a ≤ n) (ha : exp - normalizeShift signif + 1 < a - 16445) (ha' : a ≤ 32828) :
    ¬ Rounds mode (flipSign flipped (u128NormalizeRound mode signif exp false))
      (Lib.Rounding.signed flipped ((n : ℚ) * 2 ^ f80Format.least)) := by
  obtain ⟨hexp, hle⟩ := u128NormalizeRound_le mode signif false he h
  refine not_rounds_of_lt hexp ?_ (le_units hn) (by omega) (by omega)
  exact lt_of_le_of_lt hle (zpow_lt_zpow_right₀ one_lt_two ha)

end Bounds

end Isl.Emu
