import Isl.Emu.Float80Norm

/-!
`u128_normalize_round` at every significand, and at every exponent of a product or of a
sum: the largest significands below the exponents of the numbers, where a carry is right,
and the small ones with an exponent whose field wraps.
-/

namespace Isl.Emu

open Lib.Rounding (Direction Format Rounded)

/-- The carry gives the smallest normal number, which is right just below its exponent. -/
def CarryGuard (mode : RoundingMode) (sign : Bool) (n : ℕ) (exp : ℤ) : Prop :=
  exp = -16383 ∧
    (mode.direction.away sign = true ∨ (mode = .roundToNearest ∧ 2 ^ 128 - 2 ^ 63 ≤ n))

/-- The field of zero must wrap to zero. Other significands are kept up to the largest
exponent, and the one behind it is that of the infinity. -/
def WrapGuard (mode : RoundingMode) (sign : Bool) (n : ℕ) (exp : ℤ) : Prop :=
  let away := mode.direction.away sign = true
  let k := 128 - n.size
  (n = 0 ∧ exp = 16513 ∧ ¬ away) ∨
  (n ≠ 0 ∧ exp - k ≤ 16383 ∧ ¬ away) ∨
  (exp - k = 16384 ∧ mode = .roundToNearest ∧ n * 2 ^ k = 2 ^ 127)

def RoundGuard (mode : RoundingMode) (sign : Bool) (n : ℕ) (exp : ℤ) : Prop :=
  if exp < -16382 ∧ 2 ^ 128 - 2 ^ 64 ≤ n then CarryGuard mode sign n exp
  else if 16447 < exp ∧ n < 2 ^ 64 then WrapGuard mode sign n exp
  else NormalizeGuard mode sign n exp

section

variable {mode : RoundingMode} {sign : Bool} {signif : Uint128} {exp : ℤ}

/-- Only the smallest normal number can be right. -/
theorem roundedFloat_carry_iff {k : ℕ} (hk : 65 ≤ k) (hn : 2 ^ 128 - 2 ^ 64 ≤ signif.toNat) :
    Rounds mode (roundedFloat mode signif expDenormal sign) (Lib.Rounding.signed sign
        ((signif.toNat : ℚ) / (2 ^ k : ℕ) * 2 ^ f80Format.least)) ↔
      mode.shifted sign signif.toNat 64 = 2 ^ 64 ∧
        mode.direction.quotient sign signif.toNat (2 ^ k) = 2 ^ 63 := by
  rw [Rounds, round_denormal (by omega) signif.isLt]
  rcases (shifted_le_top mode signif sign).lt_or_eq with h | h
  · have hlarge : signif.toNat / 2 ^ 64 ≤ mode.shifted sign signif.toNat 64 := Nat.le_add_right _ _
    rw [roundedFloat_of_lt _ _ _ _ h, is_denormal_iff h]
    omega
  · have hone : (expDenormal + 1).toNat = 1 := by decide
    have hplace : ((1 : ℕ) - 16446 : ℤ) = f80Format.least := by decide
    rw [roundedFloat_of_eq _ _ _ _ h, is_normal_iff (by norm_num) hone one_pos, hplace,
      Lib.Rounding.signed_inj, Lib.Rounding.natCast_mul_zpow_inj]
    omega

theorem shifted_eq_top_iff (hn : 2 ^ 128 - 2 ^ 64 ≤ signif.toNat) :
    mode.shifted sign signif.toNat 64 = 2 ^ 64 ↔
      mode.direction.away sign = true ∨
        (mode = .roundToNearest ∧ 2 ^ 128 - 2 ^ 63 ≤ signif.toNat) := by
  have hlt := signif.isLt
  have hdiv : signif.toNat / 2 ^ 64 = 2 ^ 64 - 1 := by omega
  cases mode with
  | roundToNearest =>
    have hcases := Direction.nearestEven.quotient_cases sign signif.toNat (2 ^ 64)
    simp only [Direction.carries, Nat.odd_iff] at hcases
    rw [RoundingMode.shifted_nearest sign _ (by norm_num) (by norm_num)]
    simp only [RoundingMode.direction, Direction.away, Bool.false_eq_true, false_or, true_and]
    omega
  | _ =>
    simp only [RoundingMode.shifted, RoundingMode.adds, RoundingMode.direction, Direction.away, hdiv]
    cases sign <;> simp

/-- Only half of the significand is as large as that. -/
theorem quotient_eq_half_iff {d : ℕ} (hn : 2 ^ 128 - 2 ^ 64 ≤ signif.toNat) :
    mode.direction.quotient sign signif.toNat (2 ^ (65 + d)) = 2 ^ 63 ↔
      d = 0 ∧ (mode.direction.away sign = true ∨ mode = .roundToNearest) := by
  have hlt := signif.isLt
  rcases Nat.eq_zero_or_pos d with rfl | hd
  · have hcases := mode.direction.quotient_cases sign signif.toNat (2 ^ 65)
    cases mode with
    | roundToNearest =>
      simp only [Direction.carries, RoundingMode.direction, Nat.odd_iff] at hcases
      simp only [RoundingMode.direction, or_true, and_true, Nat.add_zero, iff_true]
      omega
    | _ =>
      cases sign <;>
        simp [Direction.carries, RoundingMode.direction, Direction.away] at hcases ⊢ <;> omega
  · have hpow : 2 ^ 66 ≤ 2 ^ (65 + d) := Nat.pow_le_pow_right two_pos (by omega)
    have hdiv : signif.toNat / 2 ^ (65 + d) ≤ signif.toNat / 2 ^ 66 :=
      Nat.div_le_div_left hpow (by norm_num)
    have hle := mode.direction.quotient_le sign signif.toNat (2 ^ (65 + d))
    omega

theorem rounds_carry_iff (he : exp < -16382) (hn : 2 ^ 128 - 2 ^ 64 ≤ signif.toNat) :
    Rounds mode (u128NormalizeRound mode signif exp sign) (scaled sign signif.toNat exp) ↔
      CarryGuard mode sign signif.toNat exp := by
  obtain ⟨d, rfl⟩ : ∃ d : ℕ, exp = -16383 - d := ⟨(-16383 - exp).toNat, by omega⟩
  have hzero : ((-16383 - d : ℤ) + 16382).toNat = 0 := by omega
  have hplace : (-16383 - d : ℤ) - 127 = f80Format.least - (65 + d : ℕ) := by
    change _ = (-16445 : ℤ) - (65 + d : ℕ)
    omega
  have hd : (-16383 - d : ℤ) = -16383 ↔ d = 0 := by omega
  rw [u128NormalizeRound_low mode signif sign (by omega), hzero, BitVec.shiftLeft_zero,
    scaled_denormal _ (65 + d) hplace, roundedFloat_carry_iff (by omega) hn, shifted_eq_top_iff hn,
    quotient_eq_half_iff hn, CarryGuard, hd]
  tauto

theorem normalizeShift_zero (hn : signif.toNat = 0) : normalizeShift signif = 128 := by
  rw [normalizeShift, if_pos (BitVec.eq_of_toNat_eq hn)]

/-- Zero is a number only where its field wraps to that of the denormal numbers. -/
theorem rounds_wrap_zero_iff (hn : signif.toNat = 0) (he : 16447 < exp) (he' : exp ≤ 32767) :
    Rounds mode (u128NormalizeRound mode signif exp sign) (scaled sign signif.toNat exp) ↔
      exp = 16513 ∧ ¬ mode.direction.away sign = true := by
  have hword : (signif <<< 128).toNat = 2 ^ 64 * 0 := by
    rw [BitVec.toNat_shiftLeft, hn, Nat.zero_shiftLeft, Nat.zero_mod, Nat.mul_zero]
  have hsmall : mode.shifted sign (2 ^ 64 * 0) 64 = 0 + if mode.direction.away sign then 1 else 0 :=
    RoundingMode.shifted_two_pow_mul mode sign (by norm_num) (by norm_num) 0
  have hlt : mode.shifted sign (signif <<< 128).toNat 64 < 2 ^ 63 := by
    rw [hword, hsmall]
    split <;> norm_num
  generalize hfield : BitVec.ofInt 15 (exp - (128 : ℕ) + 16383) = field
  have htoNat : field.toNat = ((exp - (128 : ℕ) + 16383) % 32768).toNat :=
    hfield ▸ BitVec.toNat_ofInt _
  rw [u128NormalizeRound_high _ _ _ (by rw [normalizeShift_zero hn]; omega),
    normalizeShift_zero hn, Rounds, hn, round_zero, hfield,
    roundedFloat_of_lt _ _ _ _ (by omega)]
  rcases Nat.eq_zero_or_pos field.toNat with hzero | hpos
  · have hdenormal : field = expDenormal := BitVec.eq_of_toNat_eq hzero
    have hplace : exp = 16513 := by omega
    rw [hdenormal, is_denormal_iff (by omega), hword, hsmall]
    cases mode.direction.away sign
    · simp [hplace]
    · simp only [if_true, not_true, and_false, iff_false, not_and]
      intro _ hvalue
      have hne : (2 : ℚ) ^ f80Format.least ≠ 0 := (zpow_pos two_pos _).ne'
      cases sign <;> simp_all
  · rw [is_normal_iff (by omega) rfl hpos]
    omega

/-- A significand that is exact in 64 bits, with an exponent above that of the largest
number. -/
theorem rounds_wrap_limit_iff {k : ℕ} (hlow : 2 ^ 127 ≤ signif.toNat * 2 ^ k)
    (hhigh : signif.toNat * 2 ^ k < 2 ^ 128) (hn : signif.toNat < 2 ^ 64) (he : 16384 ≤ exp - k)
    (he' : exp ≤ 32767) :
    Rounds mode (u128NormalizeRound mode signif exp sign) (scaled sign signif.toNat exp) ↔
      exp - k = 16384 ∧ mode = .roundToNearest ∧ signif.toNat * 2 ^ k = 2 ^ 127 := by
  obtain ⟨hk, hshift⟩ := normalizeShift_of_lt hlow hhigh hn
  obtain ⟨j, rfl⟩ : ∃ j, k = 64 + j := ⟨k - 64, by omega⟩
  have hsplit : signif.toNat * 2 ^ (64 + j) = 2 ^ 64 * (signif.toNat * 2 ^ j) := by ring
  have hword : (signif <<< (64 + j)).toNat = 2 ^ 64 * (signif.toNat * 2 ^ j) := by
    rw [BitVec.toNat_shiftLeft, Nat.shiftLeft_eq, Nat.mod_eq_of_lt hhigh, hsplit]
  have hround := round_of_limit mode sign hlow he
  rw [scaled_shift] at hround
  have hfield : (BitVec.ofInt 15 (exp - (64 + j : ℕ) + 16383)).toNat
      = ((exp - (64 + j : ℕ) + 16383) % 32768).toNat := BitVec.toNat_ofInt _
  rw [u128NormalizeRound_high _ _ _ (by rw [hshift]; omega), hshift, Rounds, hround,
    rounds_overflow_iff rfl, hfield, hword,
    RoundingMode.shifted_two_pow_mul _ _ (by norm_num) (by norm_num), hsplit]
  generalize signif.toNat * 2 ^ j = c at *
  have hnot_largest : ((exp - (64 + j : ℕ) + 16383) % 32768).toNat ≠ 32766 := by omega
  have hinfinite : ((exp - (64 + j : ℕ) + 16383) % 32768).toNat = 32767 ↔
      exp - (64 + j : ℕ) = 16384 := by omega
  simp only [hnot_largest, hinfinite, false_and, and_false, or_false]
  cases mode with
  | roundToNearest =>
    simp only [RoundingMode.direction, Direction.away, Bool.false_eq_true, or_false, true_and,
      if_false]
    omega
  | _ =>
    cases sign <;> simp [RoundingMode.direction, Direction.away] <;> omega

theorem rounds_wrap_iff (hn : signif.toNat < 2 ^ 64) (he : 16447 < exp) (he' : exp ≤ 32767) :
    Rounds mode (u128NormalizeRound mode signif exp sign) (scaled sign signif.toNat exp) ↔
      WrapGuard mode sign signif.toNat exp := by
  unfold WrapGuard
  by_cases hzero : signif.toNat = 0
  · rw [rounds_wrap_zero_iff hzero he he']
    simp [hzero]
  obtain ⟨hlow, hhigh⟩ := leading_bounds hzero signif.isLt
  generalize 128 - signif.toNat.size = k at hlow hhigh
  have hk := (normalizeShift_of_lt hlow hhigh hn).1
  have hk' : k < 128 := by
    by_contra h
    have hpow : 2 ^ 128 ≤ 2 ^ k := Nat.pow_le_pow_right two_pos (by omega)
    have := Nat.mul_le_mul (Nat.pos_of_ne_zero hzero) hpow
    omega
  by_cases hexact : exp - k ≤ 16383
  · have hlast : exp - k ≠ 16384 := by omega
    rw [rounds_exact_iff hlow hhigh hn (by omega) hexact]
    simp only [hzero, hexact, hlast, false_and, not_false_eq_true, true_and, false_or, or_false,
      ne_eq]
  · rw [rounds_wrap_limit_iff hlow hhigh hn (by omega) he']
    simp only [hzero, hexact, false_and, and_false, false_or]

end

/-- The result is the number that is rounded if and only if the guard holds. The exponents
of products and of sums are those from -32763 to 32767. -/
theorem u128NormalizeRound_iff (mode : RoundingMode) (sign : Bool) (signif : Uint128) {exp : ℤ}
    (hexp : exp ≤ 32767) :
    Rounds mode (u128NormalizeRound mode signif exp sign) (scaled sign signif.toNat exp) ↔
      RoundGuard mode sign signif.toNat exp := by
  unfold RoundGuard
  split_ifs with hcarry hwrap
  · exact rounds_carry_iff hcarry.1 hcarry.2
  · exact rounds_wrap_iff hwrap.2 hwrap.1 hexp
  · exact u128NormalizeRound_rounds_iff mode sign signif (fun h ↦ by omega) hexp
      (fun h ↦ by omega)

theorem u128NormalizeRound_iff_one : (0 : ℤ) ≤ 32767 ∧
    (Rounds .roundToNearest (u128NormalizeRound .roundToNearest 1 0 false)
        (scaled false (1 : Uint128).toNat 0) ↔
      RoundGuard .roundToNearest false (1 : Uint128).toNat 0) :=
  ⟨by decide, u128NormalizeRound_iff .roundToNearest false 1 (by decide)⟩

/-- One, as a significand of 128 bits, is shifted out of its word. -/
theorem not_rounds_one : ¬ ∀ (mode : RoundingMode) (sign : Bool) (signif : Uint128) (exp : ℤ),
    -32763 ≤ exp → exp ≤ 32767 →
    Rounds mode (u128NormalizeRound mode signif exp sign) (scaled sign signif.toNat exp) := by
  intro h
  have hrounds := h .roundToNearest false (1#128 <<< 127) 0 (by decide) (by decide)
  exact absurd (Float80.Is.supported hrounds) (by decide)

end Isl.Emu
