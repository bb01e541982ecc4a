import Isl.Emu.Float80Units

/-!
Sums and differences. The significand of the smaller exponent is rounded when it is brought
to the other exponent, and the result is shifted 64 places too far where it is not small.
-/

namespace Isl.Emu

open Lib.Rounding (Direction Format Rounded)

/-! The significand of the smaller exponent. -/

/-- It is rounded at the place of the larger one, in 128 bits. -/
def aligned (mode : RoundingMode) (n d : ℕ) : ℕ :=
  if d = 0 then n * 2 ^ 64 else if d ≤ 127 then mode.shifted false (n * 2 ^ 64) d else 0

theorem toNat_wide (x : Qword) : (uint128FromUint64 x <<< 64).toNat = x.toNat * 2 ^ 64 := by
  have hlt := x.isLt
  have hwide : (uint128FromUint64 x).toNat = x.toNat := by
    rw [uint128FromUint64, BitVec.toNat_setWidth, Nat.mod_eq_of_lt (by omega)]
  rw [BitVec.toNat_shiftLeft, Nat.shiftLeft_eq, hwide, Nat.mod_eq_of_lt (by omega)]

theorem toNat_aligned (mode : RoundingMode) (x : Qword) (d : ℕ) :
    (u128ShiftRightRound mode (uint128FromUint64 x <<< 64) d false).toNat
      = aligned mode x.toNat d := by
  rw [aligned]
  split_ifs with hzero hle
  · rw [u128ShiftRightRound, if_pos hzero, toNat_wide]
  · rw [toNat_u128ShiftRightRound mode _ false (Nat.pos_of_ne_zero hzero) hle, toNat_wide]
  · rw [u128ShiftRightRound, if_neg hzero, if_pos (not_le.mp hle)]
    rfl

theorem away_false_iff (mode : RoundingMode) :
    mode.direction.away false = true ↔ mode = .roundUp := by
  cases mode <;> decide

theorem aligned_one (mode : RoundingMode) (n : ℕ) :
    aligned mode n 1 = n * 2 ^ 63 + if mode = .roundUp then 1 else 0 := by
  have hsplit : n * 2 ^ 64 = 2 ^ 1 * (n * 2 ^ 63) := by ring
  have h := mode.shifted_two_pow_mul false one_pos (show 1 ≤ 65 by norm_num) (n * 2 ^ 63)
  simp only [away_false_iff] at h
  rw [aligned, if_neg one_ne_zero, if_pos (by norm_num), hsplit, h]

theorem aligned_le (mode : RoundingMode) (n : ℕ) {d : ℕ} (hd : 0 < d) :
    aligned mode n d ≤ n * 2 ^ 64 / 2 ^ d + 1 := by
  rw [aligned, if_neg hd.ne']
  split
  · exact mode.shifted_le false _ d
  · exact Nat.zero_le _

/-- At two places or more, a quarter and one. -/
theorem aligned_lt (mode : RoundingMode) {n d : ℕ} (hn : n < 2 ^ 64) (hd : 2 ≤ d) :
    aligned mode n d ≤ 2 ^ 126 := by
  have hle := aligned_le mode n (show 0 < d by omega)
  have hpow : 2 ^ 2 ≤ 2 ^ d := Nat.pow_le_pow_right two_pos hd
  have hdiv : n * 2 ^ 64 / 2 ^ d ≤ n * 2 ^ 64 / 2 ^ 2 := Nat.div_le_div_left hpow (by norm_num)
  omega

theorem aligned_lt_half (mode : RoundingMode) {n d : ℕ} (hn : n < 2 ^ 64) (hd : 0 < d) :
    aligned mode n d < 2 ^ 127 := by
  by_cases hone : d = 1
  · rw [hone, aligned_one]
    split <;> omega
  · have := aligned_lt mode hn (show 2 ≤ d by omega)
    omega

/-! Sums and differences before they are rounded. -/

def checked (f : Float80) : Option Float80 := if f80IsSupported f then some f else none

theorem shifted_one_of_overflow (mode : RoundingMode) {n : ℕ} (hn : 2 ^ 128 ≤ n) :
    mode.shifted false n 1 = 2 ^ 127 + mode.shifted false (n - 2 ^ 128) 1 := by
  obtain ⟨m, rfl⟩ : ∃ m, n = m + 2 ^ 128 := ⟨n - 2 ^ 128, by omega⟩
  have hhalf : (m + 2 ^ 128) / 2 ^ 1 = 2 ^ 127 + m / 2 ^ 1 := by omega
  have hmod : (m + 2 ^ 128) % 2 = m % 2 := by omega
  have hodd : Odd (2 ^ 127 + m / 2 ^ 1) ↔ Odd (m / 2 ^ 1) := by
    simp only [Nat.odd_iff]
    omega
  have hadds : mode.adds false (m + 2 ^ 128) 1 ↔ mode.adds false m 1 := by
    cases mode with
    | roundToNearest =>
      simp only [RoundingMode.adds, Nat.sub_self, Nat.zero_le, inf_of_le_left, Nat.testBit_zero,
        Nat.pow_zero, Nat.mod_one, hmod, hhalf, hodd]
    | _ => exact Iff.rfl
  simp only [RoundingMode.shifted, hadds, Nat.add_sub_cancel, hhalf, Nat.add_assoc]

section Flipped

variable (mode : RoundingMode) {a b : Float80} (flipped : Bool)

theorem f80AddFlipped_add (hb : b.sign = false) (ha : f80Isinf a = false) {n : ℕ}
    (hn : n = a.signif.toNat * 2 ^ 64
      + aligned mode b.signif.toNat (a.exp.toNat - b.exp.toNat)) :
    ∃ (signif : Uint128) (exp : ℤ),
      f80AddFlipped mode a b flipped
        = checked (flipSign flipped (u128NormalizeRound mode signif exp false)) ∧
      ((n < 2 ^ 128 ∧ signif.toNat = n ∧ exp = unbias a.exp) ∨
        (2 ^ 128 ≤ n ∧ signif.toNat = mode.shifted false n 1 ∧ exp = unbias a.exp + 1)) := by
  have hwide := toNat_wide a.signif
  have haligned := toNat_aligned mode b.signif (a.exp.toNat - b.exp.toNat)
  have ha' := a.signif.isLt
  rw [f80AddFlipped]
  simp only [hb, ha, Bool.not_false, if_true, Bool.false_eq_true, if_false, uint128Add]
  generalize uint128FromUint64 a.signif <<< 64 = x at *
  generalize u128ShiftRightRound mode (uint128FromUint64 b.signif <<< 64)
    (a.exp.toNat - b.exp.toNat) false = y at *
  have hy := y.isLt
  have hsum : (x + y).toNat = (x.toNat + y.toNat) % 2 ^ 128 := BitVec.toNat_add x y
  have hoverflow : (decide (x + y < x) || decide (x + y < y)) = decide (2 ^ 128 ≤ n) := by
    rw [← Bool.decide_or, decide_eq_decide, BitVec.lt_def, BitVec.lt_def]
    omega
  by_cases h : 2 ^ 128 ≤ n
  · have hrest : (x + y).toNat = n - 2 ^ 128 := by omega
    have hshifted := toNat_u128ShiftRightRound mode (x + y) false one_pos (by norm_num)
    have hle := mode.shifted_le false (n - 2 ^ 128) 1
    have hsmall : mode.shifted false (n - 2 ^ 128) 1 < 2 ^ 127 := by omega
    rw [hrest] at hshifted
    refine ⟨u128ShiftRightRound mode (x + y) 1 false ||| 1#128 <<< 127, _, ?_, .inr ⟨h, ?_, rfl⟩⟩
    · simp only [hoverflow, h, decide_true, if_true]
      rfl
    · have htop : (1#128 <<< 127).toNat = 2 ^ 127 := by decide
      rw [BitVec.toNat_or, hshifted, htop, shifted_one_of_overflow mode h, Nat.or_comm]
      exact (Nat.two_pow_add_eq_or_of_lt hsmall 1).symm
  · refine ⟨x + y, _, ?_, .inl ⟨not_le.mp h, ?_, rfl⟩⟩
    · simp only [hoverflow, h, decide_false, Bool.false_eq_true, if_false]
      rfl
    · omega

theorem f80AddFlipped_sub (hb : b.sign = true) (hinf : ¬ (f80Isinf a = true ∧ f80Isinf b = true))
    (hle : aligned mode b.signif.toNat (a.exp.toNat - b.exp.toNat) ≤ a.signif.toNat * 2 ^ 64)
    {n : ℕ} (hn : n = a.signif.toNat * 2 ^ 64
      - aligned mode b.signif.toNat (a.exp.toNat - b.exp.toNat)) :
    ∃ signif : Uint128, signif.toNat = n ∧ f80AddFlipped mode a b flipped
      = if n % 2 ^ 64 = 0 then some f80Zero
        else checked (flipSign flipped (u128NormalizeRound mode signif (unbias a.exp) false)) := by
  have hwide := toNat_wide a.signif
  have haligned := toNat_aligned mode b.signif (a.exp.toNat - b.exp.toNat)
  have hinf' : (f80Isinf a && f80Isinf b) = false := by
    rwa [← Bool.not_eq_true, Bool.and_eq_true]
  rw [f80AddFlipped]
  simp only [hb, hinf', Bool.not_true, Bool.false_eq_true, if_false]
  generalize uint128FromUint64 a.signif <<< 64 = x at *
  generalize u128ShiftRightRound mode (uint128FromUint64 b.signif <<< 64)
    (a.exp.toNat - b.exp.toNat) false = y at *
  have hle' : y ≤ x := by
    rw [BitVec.le_def]
    omega
  have hdiff : (x - y).toNat = n := by
    rw [BitVec.toNat_sub_of_le hle']
    omega
  have hlow : uint128ToUint64 (x - y) = 0 ↔ n % 2 ^ 64 = 0 := by
    rw [← BitVec.toNat_inj, uint128ToUint64, BitVec.toNat_setWidth, hdiff]
    rfl
  refine ⟨x - y, hdiff, ?_⟩
  simp only [hle', if_true, hlow]
  rfl

theorem f80AddFlipped_equal (hb : b.sign = true)
    (hinf : ¬ (f80Isinf a = true ∧ f80Isinf b = true)) (hexp : a.exp = b.exp) :
    f80AddFlipped mode a b flipped = some f80Zero := by
  have hinf' : (f80Isinf a && f80Isinf b) = false := by
    rwa [← Bool.not_eq_true, Bool.and_eq_true]
  have hshift (x : Qword) : u128ShiftRightRound mode (uint128FromUint64 x <<< 64)
      (a.exp.toNat - b.exp.toNat) false = uint128FromUint64 x <<< 64 := by
    rw [hexp, Nat.sub_self, u128ShiftRightRound, if_pos rfl]
  have hlow (x y : Qword) :
      uint128ToUint64 (uint128FromUint64 x <<< 64 - uint128FromUint64 y <<< 64) = 0 := by
    have hx := toNat_wide x
    have hy := toNat_wide y
    apply BitVec.eq_of_toNat_eq
    rw [uint128ToUint64, BitVec.toNat_setWidth, BitVec.toNat_sub, hx, hy]
    change _ = 0
    omega
  rw [f80AddFlipped]
  simp only [hb, hinf', Bool.not_true, Bool.false_eq_true, if_false, hshift]
  by_cases h : uint128FromUint64 b.signif <<< 64 ≤ uint128FromUint64 a.signif <<< 64
  · simp only [h, if_true, hlow]
  · simp only [h, if_false, hlow, if_true]

end Flipped

/-! When sums and differences are right. -/

/-- The result of an addition that is rounded right. -/
def Sums (mode : RoundingMode) (r : Option Float80) (x : ℚ) : Prop :=
  ∃ f, r = some f ∧ Rounds mode f x

theorem Rounds.supported {mode : RoundingMode} {f : Float80} {x : ℚ} (h : Rounds mode f x) :
    f80IsSupported f = true := Float80.Is.supported h

theorem sums_checked_iff {mode : RoundingMode} {f : Float80} {x : ℚ} :
    Sums mode (checked f) x ↔ Rounds mode f x := by
  constructor
  · rintro ⟨g, hg, h⟩
    rw [checked] at hg
    split at hg
    · obtain rfl := Option.some.inj hg
      exact h
    · cases hg
  · intro h
    exact ⟨f, if_pos h.supported, h⟩

theorem sums_some_iff {mode : RoundingMode} {f : Float80} {x : ℚ} :
    Sums mode (some f) x ↔ Rounds mode f x := by
  constructor
  · rintro ⟨g, hg, h⟩
    obtain rfl := Option.some.inj hg
    exact h
  · exact fun h ↦ ⟨f, rfl, h⟩

theorem normalizeShift_of_top {n : Uint128} (h : 2 ^ 127 ≤ n.toNat) : normalizeShift n = 64 :=
  (normalizeShift_of_ge (k := 0) (by omega) (by have := n.isLt; omega) (by omega)).2

theorem rounds_zero_iff {mode : RoundingMode} {negative : Bool} {n : ℕ} :
    Rounds mode f80Zero (Lib.Rounding.signed negative ((n : ℚ) * 2 ^ f80Format.least)) ↔ n = 0 := by
  have hvalue : f80Zero.value = 0 := by
    rw [Float80.value_eq_units]
    simp [Float80.units, f80Zero]
  constructor
  · intro h
    by_contra hne
    have hx := le_units (a := 0) (Nat.pos_of_ne_zero hne)
    rcases le_of_rounds hx (by norm_num) (by norm_num) h with hinf | ⟨-, hle⟩
    · exact absurd hinf (by decide)
    · rw [hvalue, abs_zero] at hle
      exact absurd hle (zpow_pos two_pos _).not_ge
  · rintro rfl
    have hround := Format.round_of_lt (F := f80Format) mode.direction
      (Format.unlimited_exact (K := ℚ) mode.direction negative (n := 0) (q := f80Format.least)
        (by norm_num) le_rfl) (Format.natCast_mul_zpow_lt (k := 0) one_pos (by decide))
    rw [Rounds, hround]
    refine ⟨by decide, by decide, ?_⟩
    simp [hvalue]

/-- Where a difference of two numbers is right: both are equal, or the difference is small or
has the one bit that is not lost. -/
def DiffGuard (mode : RoundingMode) (a b : Float80) : Prop :=
  (a.exp.toNat = b.exp.toNat ∧ a.signif.toNat = b.signif.toNat) ∨
  (b.exp.toNat ≠ 0 ∧ a.exp.toNat = b.exp.toNat + 1 ∧
    ((a.units - b.units < 2 ^ 63 ∧ (b.signif.toNat % 2 = 1 ∨ mode = .roundUp)) ∨
      (64 ≤ b.exp.toNat ∧
        2 * a.signif.toNat - b.signif.toNat = if mode = .roundUp then 2 else 1))) ∨
  (b.exp.toNat = 0 ∧ a.exp.toNat = 1 ∧ a.signif.toNat = 2 ^ 63 ∧ b.signif.toNat = 1 ∧
    (mode = .roundDown ∨ mode = .roundChop))

section Finite

variable {mode : RoundingMode} {a b : Float80} {flipped : Bool} (ha : f80IsSupported a = true)
  (hb : f80IsSupported b = true) (ha' : a.exp ≠ expSpecial)

theorem toNat_exp_le {f : Float80} (hf : f.exp ≠ expSpecial) : f.exp.toNat ≤ 32766 := by
  have hlt := f.exp.isLt
  have hne : f.exp.toNat ≠ 32767 := fun h ↦ hf (BitVec.eq_of_toNat_eq h)
  omega

include ha hb in
/-- Of sums with a normal number, only that of the smallest one and zero is so small. -/
theorem smallest_of_units_add (hzero : a.exp.toNat ≠ 0)
    (hunits : a.units + b.units ≤ 2 ^ 63) :
    a.exp.toNat = 1 ∧ a.signif.toNat = 2 ^ 63 ∧ b.exp.toNat = 0 ∧ b.signif.toNat = 0 := by
  have hnormal := Float80.le_signif_of_normal ha hzero
  have hua : a.signif.toNat * 2 ^ (a.exp.toNat - 1) = a.units := rfl
  have hone : a.exp.toNat = 1 := by
    by_contra hne
    have hpow : 2 ^ 1 ≤ 2 ^ (a.exp.toNat - 1) := Nat.pow_le_pow_right two_pos (by omega)
    have hmul := Nat.mul_le_mul hnormal hpow
    omega
  rw [hone, Nat.sub_self, pow_zero, mul_one] at hua
  obtain ⟨hsmallest, hub⟩ : a.signif.toNat = 2 ^ 63 ∧ b.units = 0 := by omega
  have hzero' : b.signif.toNat = 0 :=
    (Nat.mul_eq_zero.mp hub).resolve_right (Nat.two_pow_pos _).ne'
  have hdenormal : b.exp.toNat = 0 := by
    by_contra hne
    have := Float80.le_signif_of_normal hb hne
    omega
  exact ⟨hone, hsmallest, hdenormal, hzero'⟩

include ha hb ha'

variable (mode flipped) in
theorem sums_add_of_denormal (hexp : b.exp.toNat ≤ a.exp.toNat) (hsign : b.sign = false)
    (hzero : a.exp.toNat = 0) :
    Sums mode (f80AddFlipped mode a b flipped)
        (Lib.Rounding.signed flipped (((a.units + b.units : ℕ) : ℚ) * 2 ^ f80Format.least)) ↔
      a.signif.toNat + b.signif.toNat < 2 ^ 63 ∧ mode ≠ .roundUp := by
  obtain ⟨signif, exp, hresult, hcases⟩ := f80AddFlipped_add mode flipped hsign
    (f80Isinf_of_finite ha') rfl
  obtain ⟨hua, hsmall⟩ := Float80.units_of_denormal ha hzero
  obtain ⟨hub, hsmall'⟩ := Float80.units_of_denormal hb (by omega)
  have hsplit : a.signif.toNat * 2 ^ 64 + b.signif.toNat * 2 ^ 64
      = 2 ^ 64 * (a.signif.toNat + b.signif.toNat) := by ring
  have hexp' : unbias a.exp = -16383 := by
    rw [unbias, hzero]
    rfl
  rw [hzero, Nat.zero_sub, aligned, if_pos rfl, hsplit] at hcases
  obtain ⟨hword, rfl⟩ : signif.toNat = 2 ^ 64 * (a.signif.toNat + b.signif.toNat) ∧
      exp = -16383 := by
    rcases hcases with ⟨-, hword, rfl⟩ | ⟨h, -⟩
    · exact ⟨hword, hexp'⟩
    · omega
  have hnot_shifted : ((-16383 : ℤ) + 16382).toNat = 0 := by decide
  rw [hresult, sums_checked_iff, u128NormalizeRound_low _ _ _ (by omega), hnot_shifted,
    BitVec.shiftLeft_zero, rounds_small_iff, hword,
    mode.shifted_two_pow_mul _ (by norm_num) (by norm_num), hua, hub]
  simp only [away_false_iff, ne_eq]
  split <;> simp only [*, not_true, not_false_eq_true, and_true, and_false, iff_false] <;> omega

variable (mode flipped) in
/-- The sum with a normal number ends 64 places too low. -/
theorem not_sums_add_of_normal (hsign : b.sign = false) (hzero : a.exp.toNat ≠ 0) :
    ¬Sums mode (f80AddFlipped mode a b flipped)
        (Lib.Rounding.signed flipped (((a.units + b.units : ℕ) : ℚ) * 2 ^ f80Format.least)) := by
  obtain ⟨signif, exp, hresult, hcases⟩ := f80AddFlipped_add mode flipped hsign
    (f80Isinf_of_finite ha') rfl
  have hle := toNat_exp_le ha'
  have hnormal := Float80.le_signif_of_normal ha hzero
  have hunits : 2 ^ (62 + a.exp.toNat) ≤ a.units + b.units := by
    have hpow : 2 ^ (62 + a.exp.toNat) = 2 ^ 63 * 2 ^ (a.exp.toNat - 1) := by
      rw [← pow_add]
      congr 1
      omega
    rw [hpow]
    exact le_trans (Nat.mul_le_mul_right _ hnormal) (Nat.le_add_right _ _)
  have htop : 2 ^ 127 ≤ signif.toNat := by
    rcases hcases with ⟨-, hword, -⟩ | ⟨h, hword, -⟩
    · omega
    · rw [hword, shifted_one_of_overflow mode h]
      exact Nat.le_add_right _ _
  have hexp' : exp ≤ unbias a.exp + 1 ∧ unbias a.exp ≤ exp := by omega
  have hunbias : unbias a.exp = a.exp.toNat - 16383 := rfl
  have hshift := normalizeShift_of_top htop
  rw [hresult, sums_checked_iff]
  by_cases hlow : exp - 64 < -16382
  · rw [u128NormalizeRound_low _ _ _ (by rw [hshift]; exact hlow), rounds_small_iff]
    rintro (⟨h, h'⟩ | ⟨h, h'⟩)
    · have hbig : 2 ^ 63 ≤ 2 ^ (62 + a.exp.toNat) := Nat.pow_le_pow_right two_pos (by omega)
      omega
    · obtain ⟨hone, hsmallest, hdenormal, hzero'⟩ := smallest_of_units_add ha hb hzero h'.le
      rw [hone, hdenormal, hzero', Nat.sub_zero, aligned_one, hsmallest] at hcases
      have hcarry := mode.shifted_le false (signif <<< (exp + 16382).toNat).toNat 64
      obtain ⟨hword, rfl⟩ : signif.toNat ≤ 2 ^ 127 + 1 ∧ exp = -16382 := by
        split at hcases <;> omega
      have hnot_shifted : ((-16382 : ℤ) + 16382).toNat = 0 := by decide
      rw [hnot_shifted, BitVec.shiftLeft_zero] at h hcarry
      omega
  · exact not_rounds_far _ _ (by omega) (by rw [hshift]; exact not_lt.mp hlow) hunits
      (by rw [hshift]; push_cast; omega) (by omega)

variable (mode flipped) in
/-- Only denormal numbers are added. -/
theorem sums_add_iff (hexp : b.exp.toNat ≤ a.exp.toNat) (hsign : b.sign = false) :
    Sums mode (f80AddFlipped mode a b flipped)
        (Lib.Rounding.signed flipped (((a.units + b.units : ℕ) : ℚ) * 2 ^ f80Format.least)) ↔
      a.exp.toNat = 0 ∧ a.signif.toNat + b.signif.toNat < 2 ^ 63 ∧ mode ≠ .roundUp := by
  by_cases hzero : a.exp.toNat = 0
  · rw [sums_add_of_denormal mode flipped ha hb ha' hexp hsign hzero, and_iff_right hzero]
  · exact iff_of_false (not_sums_add_of_normal mode flipped ha hb ha' hsign hzero)
      fun h ↦ hzero h.1

omit ha hb in
theorem sums_equal_iff (hexp : a.exp.toNat = b.exp.toNat) (hsign : b.sign = true) :
    Sums mode (f80AddFlipped mode a b flipped) (Lib.Rounding.signed flipped
        ((a.units : ℚ) * 2 ^ f80Format.least - b.units * 2 ^ f80Format.least)) ↔
      a.signif.toNat = b.signif.toNat := by
  have hinf : ¬ (f80Isinf a = true ∧ f80Isinf b = true) := by
    rw [f80Isinf_of_finite ha']
    simp
  have hunits : a.units = b.units ↔ a.signif.toNat = b.signif.toNat := by
    rw [Float80.units, Float80.units, hexp]
    exact mul_left_inj' (Nat.two_pow_pos _).ne'
  rw [f80AddFlipped_equal mode flipped hsign hinf (BitVec.eq_of_toNat_eq hexp), sums_some_iff, ← hunits]
  rcases le_total b.units a.units with h | h
  · rw [← sub_mul, ← Nat.cast_sub h, rounds_zero_iff]
    omega
  · have hneg : Lib.Rounding.signed flipped ((a.units : ℚ) * 2 ^ f80Format.least
        - b.units * 2 ^ f80Format.least) = Lib.Rounding.signed (!flipped)
          (((b.units - a.units : ℕ) : ℚ) * 2 ^ f80Format.least) := by
      rw [Nat.cast_sub h]
      cases flipped <;> simp only [Bool.not_true, Bool.not_false, Lib.Rounding.signed_true,
        Lib.Rounding.signed_false] <;> ring
    rw [hneg, rounds_zero_iff]
    omega

omit ha' in
/-- A denormal number is taken off the smallest exponent. -/
theorem rounds_last_iff {signif : Uint128} (hexp : a.exp.toNat = 1) (hexp' : b.exp.toNat = 0)
    (hword : signif.toNat = a.signif.toNat * 2 ^ 64 - aligned mode b.signif.toNat 1) :
    Rounds mode (flipSign flipped (u128NormalizeRound mode signif (unbias a.exp) false))
        (Lib.Rounding.signed flipped (((a.units - b.units : ℕ) : ℚ) * 2 ^ f80Format.least)) ↔
      a.signif.toNat = 2 ^ 63 ∧ b.signif.toNat = 1 ∧ (mode = .roundDown ∨ mode = .roundChop) := by
  have hshift := normalizeShift_ge signif
  have hunbias : unbias a.exp = -16382 := by
    rw [unbias, hexp]
    rfl
  have hua : a.units = a.signif.toNat := by
    rw [Float80.units, hexp, Nat.sub_self, pow_zero, mul_one]
  obtain ⟨hub, hsmall⟩ := Float80.units_of_denormal hb hexp'
  have hnormal := Float80.le_signif_of_normal ha (hexp ▸ one_ne_zero)
  have hlt := a.signif.isLt
  have hnot_shifted : ((-16382 : ℤ) + 16382).toNat = 0 := by decide
  rw [hunbias, u128NormalizeRound_low _ _ _ (by omega), hnot_shifted, BitVec.shiftLeft_zero,
    rounds_small_iff, hua, hub]
  rw [aligned_one] at hword
  cases mode with
  | roundToNearest =>
    have hcases := Direction.nearestEven.quotient_cases false signif.toNat (2 ^ 64)
    rw [RoundingMode.shifted_nearest _ _ (by norm_num) (by norm_num)]
    simp only [Direction.carries, Nat.odd_iff, reduceCtorEq, if_false, or_self, and_false,
      iff_false] at hcases hword ⊢
    omega
  | _ =>
    simp only [RoundingMode.shifted, RoundingMode.adds, RoundingMode.direction, Direction.away,
      reduceCtorEq, if_true, if_false, or_true, true_or, and_true, or_self, and_false, iff_false,
      Bool.not_false, Bool.false_eq_true] at hword ⊢
    omega

end Finite

section Next

variable {mode : RoundingMode} {flipped : Bool} {signif : Uint128} {t j : ℕ}

/-- Adjacent exponents, and a difference that is small. -/
theorem rounds_next_low_iff (ht : 0 < t)
    (hword : signif.toNat = t * 2 ^ 63 - if mode = .roundUp then 1 else 0)
    (hlow : (j : ℤ) - 16381 - normalizeShift signif < -16382) :
    Rounds mode (flipSign flipped (u128NormalizeRound mode signif (j - 16381) false))
        (Lib.Rounding.signed flipped (((t * 2 ^ j : ℕ) : ℚ) * 2 ^ f80Format.least)) ↔
      t * 2 ^ j < 2 ^ 63 := by
  have hplaces : ((j : ℤ) - 16381 + 16382).toNat = j + 1 := by omega
  have hpow : 0 < 2 ^ j := Nat.two_pow_pos j
  have hle : t * 2 ^ 63 * 2 ^ (j + 1) = 2 ^ 64 * (t * 2 ^ j) := by ring
  have hshifted : signif.toNat * 2 ^ (j + 1)
      = 2 ^ 64 * (t * 2 ^ j) - if mode = .roundUp then 2 ^ (j + 1) else 0 := by
    rw [hword, Nat.sub_mul, hle]
    split <;> simp
  rw [u128NormalizeRound_low _ _ _ hlow, rounds_small_iff, hplaces, BitVec.toNat_shiftLeft,
    Nat.shiftLeft_eq]
  by_cases hsmall : t * 2 ^ j < 2 ^ 63
  · have hj : 2 ^ (j + 1) < 2 ^ 64 := by
      have := Nat.le_mul_of_pos_left (2 ^ j) ht
      rw [pow_succ]
      omega
    refine iff_of_true (.inl ?_) hsmall
    rw [Nat.mod_eq_of_lt (by omega)]
    by_cases hup : mode = .roundUp
    · subst hup
      have hquotient : (2 ^ 64 * (t * 2 ^ j) - 2 ^ (j + 1)) / 2 ^ 64 = t * 2 ^ j - 1 := by
        have : 0 < t * 2 ^ j := Nat.mul_pos ht hpow
        omega
      have hadds : RoundingMode.roundUp.adds false (2 ^ 64 * (t * 2 ^ j) - 2 ^ (j + 1)) 64 := rfl
      have : 0 < t * 2 ^ j := Nat.mul_pos ht hpow
      rw [hshifted, if_pos rfl, RoundingMode.shifted, hquotient, if_pos hadds]
      omega
    · have haway := (away_false_iff mode).not.mpr hup
      rw [hshifted, if_neg hup, Nat.sub_zero, mode.shifted_two_pow_mul _ (by norm_num) (by norm_num),
        if_neg haway]
      omega
  · refine iff_of_false ?_ hsmall
    have hcarry := mode.shifted_le false (signif.toNat * 2 ^ (j + 1) % 2 ^ 128) 64
    have hmod := Nat.mod_le (signif.toNat * 2 ^ (j + 1)) (2 ^ 128)
    omega

/-- Adjacent exponents, and a difference that is shifted to a place. -/
theorem rounds_next_high_iff (hj : j ≤ 32764) (hzero : signif.toNat ≠ 0)
    (hword : signif.toNat = t * 2 ^ 63 - if mode = .roundUp then 1 else 0)
    (hhigh : -16382 ≤ (j : ℤ) - 16381 - normalizeShift signif) :
    Rounds mode (flipSign flipped (u128NormalizeRound mode signif (j - 16381) false))
        (Lib.Rounding.signed flipped (((t * 2 ^ j : ℕ) : ℚ) * 2 ^ f80Format.least)) ↔
      t = if mode = .roundUp then 2 else 1 := by
  obtain ⟨hlead, hlead'⟩ := leading_bounds hzero signif.isLt
  generalize 128 - signif.toNat.size = k at hlead hlead'
  by_cases hfit : signif.toNat < 2 ^ 64
  · obtain ⟨hk, hshift⟩ := normalizeShift_of_lt hlead hlead' hfit
    obtain ⟨i, rfl⟩ : ∃ i, k = 64 + i := ⟨k - 64, by omega⟩
    obtain ⟨e, he⟩ : ∃ e : ℕ, j = e + 62 + i := ⟨j - 62 - i, by omega⟩
    have hsplit : signif.toNat * 2 ^ (64 + i) = 2 ^ 64 * (signif.toNat * 2 ^ i) := by ring
    have hfield : (BitVec.ofInt 15 ((j : ℤ) - 16381 - (64 + i : ℕ) + 16383)).toNat = e := by
      rw [toNat_field (by omega) (by omega)]
      omega
    have hvalue : ((t * 2 ^ j : ℕ) : ℚ) * 2 ^ f80Format.least = (t : ℚ) * 2 ^ (j - 16445 : ℤ) := by
      have hplace : (j - 16445 : ℤ) = j + f80Format.least := rfl
      rw [hplace, zpow_add₀ two_ne_zero, zpow_natCast, ← mul_assoc]
      push_cast
      rfl
    have hvalue' : (t : ℚ) * 2 ^ (j - 16445 : ℤ)
        = Lib.Rounding.signed false (((t * 2 ^ (63 + i) : ℕ) : ℚ) * 2 ^ (e - 16446 : ℤ)) := by
      have hplace : (j - 16445 : ℤ) = (63 + i : ℕ) + (e - 16446) := by
        push_cast
        omega
      rw [hplace, zpow_add₀ two_ne_zero, zpow_natCast, ← mul_assoc]
      push_cast
      rfl
    rw [hvalue, rounds_flipSign_iff (by split at hword <;> omega) (by omega) (by omega), hvalue',
      u128NormalizeRound_high _ _ _ hhigh, hshift,
      roundedFloat_normal_iff hfield (by omega) (by omega), BitVec.toNat_shiftLeft,
      Nat.shiftLeft_eq, Nat.mod_eq_of_lt hlead', hsplit,
      mode.shifted_two_pow_mul _ (by norm_num) (by norm_num), pow_add]
    rw [hsplit] at hlead hlead'
    have hpos := Nat.two_pow_pos i
    simp only [away_false_iff]
    by_cases hup : mode = .roundUp
    · simp only [hup, if_true] at hword ⊢
      have hmul : signif.toNat * 2 ^ i + 2 ^ i = t * 2 ^ 63 * 2 ^ i := by
        rw [← Nat.succ_mul]
        congr 1
        omega
      obtain rfl | rfl : t = 1 ∨ t = 2 := by omega
      · omega
      · omega
    · simp only [hup, if_false, Nat.sub_zero] at hword ⊢
      have hmul : signif.toNat * 2 ^ i = t * 2 ^ 63 * 2 ^ i := by rw [hword]
      obtain rfl : t = 1 := by omega
      omega
  · obtain ⟨hk, hshift⟩ := normalizeShift_of_ge hlead hlead' (not_lt.mp hfit)
    have hpow : 2 ^ 127 = 2 ^ 63 * 2 ^ (64 - k) * 2 ^ k := by
      rw [← pow_add, ← pow_add]
      congr 1
      omega
    have ht : 2 ^ (64 - k) ≤ t := by
      rw [hpow] at hlead
      have := le_of_mul_le_mul_right hlead (Nat.two_pow_pos k)
      omega
    have hunits : 2 ^ (64 - k + j) ≤ t * 2 ^ j := by
      rw [pow_add]
      exact Nat.mul_le_mul_right _ ht
    rw [hshift] at hhigh
    refine iff_of_false (not_rounds_far _ _ (by omega) (by rw [hshift]; exact hhigh) hunits
      (by rw [hshift]; push_cast; omega) (by omega)) ?_
    by_cases hup : mode = .roundUp <;> simp only [hup, if_true, if_false] at hword ⊢ <;> omega

end Next

section Difference

variable {mode : RoundingMode} {a b : Float80} {flipped : Bool} (ha : f80IsSupported a = true)
  (hb : f80IsSupported b = true) (ha' : a.exp ≠ expSpecial)

include ha hb

/-- A number with a larger exponent is larger. -/
theorem units_lt (hexp : b.exp.toNat < a.exp.toNat) : b.units < a.units := by
  have hnormal := Float80.le_signif_of_normal ha (by omega)
  have hlt := b.signif.isLt
  by_cases hdenormal : b.exp.toNat = 0
  · obtain ⟨-, hsmall⟩ := Float80.units_of_denormal hb hdenormal
    have := Nat.le_mul_of_pos_right a.signif.toNat (Nat.two_pow_pos (a.exp.toNat - 1))
    exact lt_of_lt_of_le hsmall (hnormal.trans this)
  · calc b.units < 2 ^ 64 * 2 ^ (b.exp.toNat - 1) :=
          Nat.mul_lt_mul_of_pos_right hlt (Nat.two_pow_pos _)
      _ = 2 ^ 63 * 2 ^ b.exp.toNat := by
        rw [← pow_add, ← pow_add]
        congr 1
        omega
      _ ≤ a.signif.toNat * 2 ^ (a.exp.toNat - 1) :=
        Nat.mul_le_mul hnormal (Nat.pow_le_pow_right two_pos (by omega))

/-- Where the exponents are not adjacent, a quarter is left at least. -/
theorem le_units_sub (hexp : b.exp.toNat + 2 ≤ a.exp.toNat) :
    2 ^ (61 + a.exp.toNat) ≤ a.units - b.units ∧ 2 ^ 63 < a.units - b.units := by
  have hnormal := Float80.le_signif_of_normal ha (by omega)
  have hlt := b.signif.isLt
  obtain ⟨c, hc⟩ : ∃ c, a.exp.toNat = c + 2 := ⟨a.exp.toNat - 2, by omega⟩
  have hpow : 2 ^ (61 + (c + 2)) = 2 ^ 63 * 2 ^ c := by ring
  have hua : 2 ^ 64 * 2 ^ c ≤ a.units := by
    calc 2 ^ 64 * 2 ^ c = 2 ^ 63 * 2 ^ (a.exp.toNat - 1) := by
          rw [← pow_add, ← pow_add]
          congr 1
          omega
      _ ≤ a.units := Nat.mul_le_mul_right _ hnormal
  have hpos := Nat.two_pow_pos c
  rw [hc, hpow]
  by_cases hdenormal : b.exp.toNat = 0
  · obtain ⟨-, hsmall⟩ := Float80.units_of_denormal hb hdenormal
    omega
  · have hub : b.units ≤ (2 ^ 64 - 1) * 2 ^ (b.exp.toNat - 1) := Nat.mul_le_mul_right _ (by omega)
    have hle : 2 * 2 ^ (b.exp.toNat - 1) ≤ 2 ^ c := by
      rw [← pow_succ']
      exact Nat.pow_le_pow_right two_pos (by omega)
    have hone := Nat.two_pow_pos (b.exp.toNat - 1)
    omega

theorem not_rounds_apart {signif : Uint128} (ha' : a.exp ≠ expSpecial)
    (hexp : b.exp.toNat + 2 ≤ a.exp.toNat) :
    ¬ Rounds mode (flipSign flipped (u128NormalizeRound mode signif (unbias a.exp) false))
        (Lib.Rounding.signed flipped (((a.units - b.units : ℕ) : ℚ) * 2 ^ f80Format.least)) := by
  obtain ⟨hunits, hlarge⟩ := le_units_sub ha hb hexp
  have hle := toNat_exp_le ha'
  have hshift := normalizeShift_ge signif
  have hunbias : unbias a.exp = a.exp.toNat - 16383 := rfl
  by_cases hlow : unbias a.exp - normalizeShift signif < -16382
  · rw [u128NormalizeRound_low _ _ _ hlow, rounds_small_iff]
    omega
  · exact not_rounds_far _ _ (by omega) (not_lt.mp hlow) hunits (by push_cast; omega) (by omega)

omit hb in
/-- A difference of adjacent exponents that are no smaller than those of normal numbers. -/
theorem rounds_next_iff {signif : Uint128} (ha' : a.exp ≠ expSpecial) (hb' : b.exp.toNat ≠ 0)
    (hexp : a.exp.toNat = b.exp.toNat + 1)
    (hword : signif.toNat = a.signif.toNat * 2 ^ 64 - aligned mode b.signif.toNat 1)
    (hlow : signif.toNat % 2 ^ 64 ≠ 0) :
    Rounds mode (flipSign flipped (u128NormalizeRound mode signif (unbias a.exp) false))
        (Lib.Rounding.signed flipped (((a.units - b.units : ℕ) : ℚ) * 2 ^ f80Format.least)) ↔
      a.units - b.units < 2 ^ 63 ∨ (64 ≤ b.exp.toNat ∧
        2 * a.signif.toNat - b.signif.toNat = if mode = .roundUp then 2 else 1) := by
  have hnormal := Float80.le_signif_of_normal ha (by omega)
  have hlt := b.signif.isLt
  have hle := toNat_exp_le ha'
  have hshift := normalizeShift_ge signif
  obtain ⟨j, hj⟩ : ∃ j, b.exp.toNat = j + 1 := ⟨b.exp.toNat - 1, by omega⟩
  obtain ⟨t, ht⟩ : ∃ t, 2 * a.signif.toNat - b.signif.toNat = t := ⟨_, rfl⟩
  have hpos : 0 < t := by omega
  have hunits : a.units - b.units = t * 2 ^ j := by
    rw [Float80.units, Float80.units, hexp, hj, Nat.add_sub_cancel, Nat.add_sub_cancel, pow_succ',
      ← mul_assoc, mul_comm _ 2, ← Nat.sub_mul, ht]
  have hunbias : unbias a.exp = j - 16381 := by
    rw [unbias, hexp, hj]
    push_cast
    ring
  have hword' : signif.toNat = t * 2 ^ 63 - if mode = .roundUp then 1 else 0 := by
    rw [hword, aligned_one]
    omega
  rw [hunits, hunbias, ht, hj]
  by_cases hsmall : (j : ℤ) - 16381 - normalizeShift signif < -16382
  · rw [rounds_next_low_iff hpos hword' hsmall]
    refine (or_iff_left ?_).symm
    rintro ⟨hlarge, htop⟩
    have hplace : 2 ^ 63 ≤ signif.toNat ∧ signif.toNat < 2 ^ 64 := by
      by_cases hup : mode = .roundUp <;> simp only [hup, if_true, if_false] at htop hword' <;> omega
    have := (normalizeShift_of_lt (k := 64) (by omega) (by omega) hplace.2).2
    omega
  · rw [rounds_next_high_iff (by omega) (fun h ↦ hlow (by rw [h]; rfl)) hword' (not_lt.mp hsmall)]
    have hlarge : ¬ t * 2 ^ j < 2 ^ 63 := by
      have hpow : 2 ^ 63 ≤ 2 ^ j := Nat.pow_le_pow_right two_pos (by omega)
      have := Nat.le_mul_of_pos_left (2 ^ j) hpos
      omega
    have hplace : 64 ≤ j + 1 := by omega
    simp only [hlarge, hplace, true_and, false_or]

include ha'

variable (mode flipped) in
/-- Differences are right at equal and at adjacent exponents only. -/
theorem sums_sub_iff (hexp : b.exp.toNat ≤ a.exp.toNat) (hsign : b.sign = true) :
    Sums mode (f80AddFlipped mode a b flipped) (Lib.Rounding.signed flipped
        ((a.units : ℚ) * 2 ^ f80Format.least - b.units * 2 ^ f80Format.least)) ↔
      DiffGuard mode a b := by
  rcases hexp.eq_or_lt with heq | hlt
  · rw [sums_equal_iff ha' heq.symm hsign, DiffGuard]
    omega
  have hunits := units_lt ha hb hlt
  have hlt' := b.signif.isLt
  have hnormal := Float80.le_signif_of_normal ha (by omega)
  have hhalf := aligned_lt_half mode hlt' (show 0 < a.exp.toNat - b.exp.toNat by omega)
  have hinf : ¬ (f80Isinf a = true ∧ f80Isinf b = true) := by
    rw [f80Isinf_of_finite ha']
    simp
  obtain ⟨signif, hword, hresult⟩ := f80AddFlipped_sub mode flipped hsign hinf
    (by omega) rfl
  rw [hresult, ← hword, ← sub_mul, ← Nat.cast_sub hunits.le]
  have hne : a.exp.toNat ≠ b.exp.toNat := hlt.ne'
  by_cases hnext : a.exp.toNat = b.exp.toNat + 1
  · have hone : a.exp.toNat - b.exp.toNat = 1 := by omega
    rw [hone] at hword
    have hodd : signif.toNat % 2 ^ 64 = 0 ↔ ¬ (b.signif.toNat % 2 = 1 ∨ mode = .roundUp) := by
      rw [hword, aligned_one]
      by_cases hup : mode = .roundUp <;> simp only [hup, if_true, if_false, or_true, or_false,
        not_true, iff_false] <;> omega
    by_cases hdenormal : b.exp.toNat = 0
    · have hguard : DiffGuard mode a b ↔ a.signif.toNat = 2 ^ 63 ∧ b.signif.toNat = 1 ∧
          (mode = .roundDown ∨ mode = .roundChop) := by
        simp only [DiffGuard, hnext, hdenormal, ne_eq, not_true, false_and, false_or, true_and,
          Nat.zero_add, one_ne_zero]
      rw [hguard]
      split_ifs with hlow
      · rw [sums_some_iff, rounds_zero_iff]
        omega
      · rw [sums_checked_iff, rounds_last_iff ha hb (by omega) hdenormal hword]
    · have hguard : DiffGuard mode a b ↔ (a.units - b.units < 2 ^ 63 ∧
          (b.signif.toNat % 2 = 1 ∨ mode = .roundUp)) ∨ (64 ≤ b.exp.toNat ∧
            2 * a.signif.toNat - b.signif.toNat = if mode = .roundUp then 2 else 1) := by
        simp only [DiffGuard, hne, hdenormal, ne_eq, not_false_eq_true, false_and, false_or, true_and,
          or_false]
        simp only [hnext, true_and]
      rw [hguard]
      by_cases hlow : signif.toNat % 2 ^ 64 = 0
      · obtain ⟨heven, hup⟩ := not_or.mp (hodd.mp hlow)
        rw [if_pos hlow, if_neg hup, sums_some_iff, rounds_zero_iff]
        simp only [heven, hup, or_self, and_false, false_or]
        omega
      · have hodd' := not_not.mp (mt hodd.mpr hlow)
        rw [if_neg hlow, sums_checked_iff, rounds_next_iff ha ha' hdenormal hnext hword hlow]
        simp only [hodd', and_true]
  · have hguard : ¬ DiffGuard mode a b := by
      simp only [DiffGuard, hne, hnext, false_and, and_false, false_or, not_and]
      omega
    refine iff_of_false ?_ hguard
    split_ifs with hlow
    · rw [sums_some_iff, rounds_zero_iff]
      omega
    · rw [sums_checked_iff]
      exact not_rounds_apart ha hb ha' (by omega)

end Difference

/-! The whole addition. -/

/-- The addition once the larger exponent is the first. -/
def f80AddOrdered (mode : RoundingMode) (a b : Float80) : Option Float80 :=
  if f80Isnan a then some a else f80AddFlipped mode (flipSign a.sign a) (flipSign a.sign b) a.sign

theorem f80Add_ordered (mode : RoundingMode) {a b : Float80} (ha : f80IsSupported a = true)
    (hb : f80IsSupported b = true) :
    f80Add mode a b = if a.exp < b.exp then f80AddOrdered mode b a else f80AddOrdered mode a b := by
  rw [f80Add]
  simp only [ha, hb, Bool.not_true, Bool.or_self, Bool.false_eq_true, if_false, f80AddOrdered]
  by_cases h : a.exp < b.exp
  · simp only [h, if_true]
    cases b.sign <;> rfl
  · simp only [h, if_false]
    cases a.sign <;> rfl

/-- What the sum of two numbers must be. -/
def SumRight (mode : RoundingMode) (result : Option Float80) (a b : Float80) : Prop :=
  ∃ f, result = some f ∧
    if f80Isnan a ∨ f80Isnan b ∨ (f80Isinf a ∧ f80Isinf b ∧ a.sign ≠ b.sign) then f80Isnan f = true
    else if f80Isinf a then f.Is (.infinite a.sign)
    else if f80Isinf b then f.Is (.infinite b.sign)
    else Rounds mode f (a.value + b.value)

def AddRight (mode : RoundingMode) (a b : Float80) : Prop := SumRight mode (f80Add mode a b) a b

/-- What the difference of two numbers must be. -/
def SubRight (mode : RoundingMode) (a b : Float80) : Prop :=
  ∃ f, f80Sub mode a b = some f ∧
    if f80Isnan a ∨ f80Isnan b ∨ (f80Isinf a ∧ f80Isinf b ∧ a.sign = b.sign) then f80Isnan f = true
    else if f80Isinf a then f.Is (.infinite a.sign)
    else if f80Isinf b then f.Is (.infinite (!b.sign))
    else Rounds mode f (a.value - b.value)

/-- The exponent of `a` is no smaller. -/
def SumGuard (mode : RoundingMode) (a b : Float80) : Prop :=
  f80Isnan a ∨ (f80Isinf a ∧ f80Isinf b ∧ a.sign ≠ b.sign) ∨
  (a.exp ≠ expSpecial ∧
    if a.sign = b.sign then
      a.exp.toNat = 0 ∧ a.signif.toNat + b.signif.toNat < 2 ^ 63 ∧ mode ≠ .roundUp
    else DiffGuard mode a b)

def AddGuard (mode : RoundingMode) (a b : Float80) : Prop :=
  if a.exp < b.exp then SumGuard mode b a else SumGuard mode a b

theorem sumRight_comm (mode : RoundingMode) (result : Option Float80) (a b : Float80) :
    SumRight mode result a b ↔ SumRight mode result b a := by
  have hnan : (f80Isnan a ∨ f80Isnan b ∨ (f80Isinf a ∧ f80Isinf b ∧ a.sign ≠ b.sign)) ↔
      (f80Isnan b ∨ f80Isnan a ∨ (f80Isinf b ∧ f80Isinf a ∧ b.sign ≠ a.sign)) := by
    rw [ne_comm (a := a.sign)]
    tauto
  simp only [SumRight, hnan, add_comm a.value]
  refine exists_congr fun f ↦ and_congr_right fun _ ↦ ?_
  split
  · exact Iff.rfl
  · rename_i h
    cases hia : f80Isinf a <;> cases hib : f80Isinf b <;>
      simp only [Bool.false_eq_true, if_false, if_true]
    have hsign : b.sign = a.sign := by
      by_contra hne
      exact h (.inr (.inr ⟨hib, hia, hne⟩))
    rw [hsign]

/-- No result but the one of opposite infinities is an infinity or no number. -/
theorem exp_f80AddFlipped {mode : RoundingMode} {a b : Float80} {flipped : Bool}
    (hinf : ¬ (f80Isinf a = true ∧ f80Isinf b = true ∧ b.sign = true)) {f : Float80}
    (hf : f80AddFlipped mode a b flipped = some f) : f.exp ≠ expSpecial := by
  have hunbias : unbias a.exp ≤ 16384 := by
    have := a.exp.isLt
    rw [unbias]
    omega
  have hfinish {signif : Uint128} {exp : ℤ} {sign : Bool} (he : exp ≤ 16446)
      (hf : checked (flipSign flipped (u128NormalizeRound mode signif exp sign)) = some f) :
      f.exp ≠ expSpecial := by
    rw [checked] at hf
    split at hf
    · obtain rfl := Option.some.inj hf
      rw [exp_flipSign]
      exact exp_u128NormalizeRound mode signif sign he
    · cases hf
  rw [f80AddFlipped] at hf
  cases hsign : b.sign
  · simp only [hsign, Bool.not_false, if_true] at hf
    split at hf
    · exact hfinish (by omega) hf
    · split at hf
      · exact hfinish (by omega) hf
      · exact hfinish (by omega) hf
  · have hinf' : (f80Isinf a && f80Isinf b) = false := by
      rw [← Bool.not_eq_true, Bool.and_eq_true]
      exact fun h ↦ hinf ⟨h.1, h.2, hsign⟩
    by_cases hle : u128ShiftRightRound mode (uint128FromUint64 b.signif <<< 64)
        (a.exp.toNat - b.exp.toNat) false ≤ uint128FromUint64 a.signif <<< 64
    · simp only [hsign, hinf', hle, Bool.not_true, Bool.false_eq_true, if_false, if_true] at hf
      split at hf
      · obtain rfl := Option.some.inj hf
        decide
      · exact hfinish (by omega) hf
    · simp only [hsign, hinf', hle, Bool.not_true, Bool.false_eq_true, if_false] at hf
      split at hf
      · obtain rfl := Option.some.inj hf
        decide
      · exact hfinish (by omega) hf

section Ordered

variable {mode : RoundingMode} {a b : Float80} (ha : f80IsSupported a = true)
  (hb : f80IsSupported b = true)

theorem units_flipSign (flipped : Bool) (f : Float80) : (flipSign flipped f).units = f.units := by
  rw [Float80.units, exp_flipSign, signif_flipSign, Float80.units]

theorem diffGuard_flipSign (s t : Bool) :
    DiffGuard mode (flipSign s a) (flipSign t b) ↔ DiffGuard mode a b := by
  simp only [DiffGuard, exp_flipSign, signif_flipSign, units_flipSign]

theorem value_add (a b : Float80) : a.value + b.value = Lib.Rounding.signed a.sign
    ((a.units : ℚ) * 2 ^ f80Format.least
      + Lib.Rounding.signed (a.sign ^^ b.sign) ((b.units : ℚ) * 2 ^ f80Format.least)) := by
  rw [Float80.value_eq_units a, Float80.value_eq_units b, signed_xor]
  cases a.sign <;> cases b.sign <;> simp <;> ring

include ha hb

theorem sumRight_finite_iff (ha' : a.exp ≠ expSpecial) (hexp : b.exp.toNat ≤ a.exp.toNat) :
    SumRight mode (f80AddOrdered mode a b) a b ↔ SumGuard mode a b := by
  have hle := toNat_exp_le ha'
  have hb' : b.exp ≠ expSpecial := by
    intro h
    rw [h, toNat_expSpecial] at hexp
    omega
  have hsums : SumRight mode (f80AddOrdered mode a b) a b ↔ Sums mode
      (f80AddFlipped mode (flipSign a.sign a) (flipSign a.sign b) a.sign) (a.value + b.value) := by
    simp only [SumRight, f80AddOrdered, f80Isnan_of_finite ha', f80Isnan_of_finite hb',
      f80Isinf_of_finite ha', f80Isinf_of_finite hb', Bool.false_eq_true, false_and, or_self, if_false]
    rfl
  have hguard : SumGuard mode a b ↔ if a.sign = b.sign then
      a.exp.toNat = 0 ∧ a.signif.toNat + b.signif.toNat < 2 ^ 63 ∧ mode ≠ .roundUp
      else DiffGuard mode a b := by
    simp only [SumGuard, f80Isnan_of_finite ha', f80Isinf_of_finite ha', Bool.false_eq_true,
      false_and, false_or, ne_eq, ha', not_false_eq_true, true_and]
  have hfa : f80IsSupported (flipSign a.sign a) = true := by rwa [f80IsSupported_flipSign]
  have hfb : f80IsSupported (flipSign a.sign b) = true := by rwa [f80IsSupported_flipSign]
  have hfa' : (flipSign a.sign a).exp ≠ expSpecial := by rwa [exp_flipSign]
  have hfexp : (flipSign a.sign b).exp.toNat ≤ (flipSign a.sign a).exp.toNat := by
    rwa [exp_flipSign, exp_flipSign]
  rw [hsums, hguard, value_add]
  by_cases hsign : a.sign = b.sign
  · have hpositive : (flipSign a.sign b).sign = false := by rw [sign_flipSign, hsign, Bool.xor_self]
    have hiff := sums_add_iff mode a.sign hfa hfb hfa' hfexp hpositive
    rw [units_flipSign, units_flipSign, exp_flipSign, signif_flipSign, signif_flipSign] at hiff
    rw [if_pos hsign, ← hiff, hsign, Bool.xor_self, Lib.Rounding.signed_false, ← add_mul,
      Nat.cast_add]
  · have hnegative : (a.sign ^^ b.sign) = true := by simpa using hsign
    have hiff := sums_sub_iff mode a.sign hfa hfb hfa' hfexp
      (by rw [sign_flipSign, hnegative])
    rw [units_flipSign, units_flipSign, diffGuard_flipSign] at hiff
    rw [if_neg hsign, ← hiff, hnegative, Lib.Rounding.signed_true, ← sub_eq_add_neg]

theorem sumRight_ordered_iff (hexp : b.exp.toNat ≤ a.exp.toNat) :
    SumRight mode (f80AddOrdered mode a b) a b ↔ SumGuard mode a b := by
  by_cases ha' : a.exp ≠ expSpecial
  · exact sumRight_finite_iff ha hb ha' hexp
  rw [not_not] at ha'
  cases hna : f80Isnan a
  swap
  · refine iff_of_true ⟨a, ?_, ?_⟩ (.inl hna)
    · rw [f80AddOrdered, if_pos hna]
    · rw [if_pos (.inl hna)]
      exact hna
  have hia : f80Isinf a = true := (nan_or_inf ha ha').resolve_left (by simp [hna])
  have hresult : f80AddOrdered mode a b
      = f80AddFlipped mode (flipSign a.sign a) (flipSign a.sign b) a.sign := by
    rw [f80AddOrdered, hna, if_neg Bool.false_ne_true]
  by_cases hopposite : f80Isinf b = true ∧ a.sign ≠ b.sign
  · have hnan : f80AddFlipped mode (flipSign a.sign a) (flipSign a.sign b) a.sign = some f80Nan := by
      have hsign : (flipSign a.sign b).sign = true := by
        rw [sign_flipSign]
        simpa using hopposite.2
      rw [f80AddFlipped]
      simp only [hsign, f80Isinf_flipSign, hia, hopposite.1, Bool.and_self, Bool.not_true,
        Bool.false_eq_true, if_false, if_true]
    refine iff_of_true ⟨f80Nan, hresult.trans hnan, ?_⟩ (.inr (.inl ⟨hia, hopposite⟩))
    rw [if_pos (.inr (.inr ⟨hia, hopposite⟩))]
    exact f80Isnan_nan
  · refine iff_of_false ?_ ?_
    · rintro ⟨f, hf, hright⟩
      have hexp' : f.exp ≠ expSpecial := by
        refine exp_f80AddFlipped ?_ (hresult ▸ hf)
        rintro ⟨-, hib, hsign⟩
        rw [f80Isinf_flipSign] at hib
        rw [sign_flipSign] at hsign
        exact hopposite ⟨hib, by simpa using hsign⟩
      split at hright
      · rw [f80Isnan_of_finite hexp'] at hright
        cases hright
      · exact hexp' (exp_of_f80Isinf hright.2.1)
    · rintro (h | ⟨-, h⟩ | ⟨h, -⟩)
      · rw [hna] at h
        cases h
      · exact hopposite h
      · exact h ha'

end Ordered

theorem addRight_iff (mode : RoundingMode) {a b : Float80} (ha : f80IsSupported a = true)
    (hb : f80IsSupported b = true) : AddRight mode a b ↔ AddGuard mode a b := by
  rw [AddRight, AddGuard, f80Add_ordered mode ha hb]
  by_cases h : a.exp < b.exp
  · rw [if_pos h, if_pos h, sumRight_comm]
    exact sumRight_ordered_iff hb ha (BitVec.lt_def.mp h).le
  · rw [if_neg h, if_neg h]
    exact sumRight_ordered_iff ha hb (not_lt.mp (mt BitVec.lt_def.mpr h))

theorem subRight_iff_addRight (mode : RoundingMode) (a b : Float80) :
    SubRight mode a b ↔ AddRight mode a (f80Neg b) := by
  have hneg : f80Neg b = flipSign true b := rfl
  have hsign : (!b.sign) = true ^^ b.sign := by cases b.sign <;> rfl
  have hne : a.sign ≠ (!b.sign) ↔ a.sign = b.sign := by
    cases a.sign <;> cases b.sign <;> decide
  have hvalue : (f80Neg b).value = -b.value := value_flipSign true b
  simp only [SubRight, AddRight, SumRight, f80Sub, f80Isnan_f80Neg, f80Isinf_f80Neg, hvalue,
    sign_f80Neg, hne, sub_eq_add_neg]

/-- When a sum and when a difference is right. -/
theorem f80Add_iff (mode : RoundingMode) {a b : Float80} (ha : f80IsSupported a = true)
    (hb : f80IsSupported b = true) :
    (AddRight mode a b ↔ AddGuard mode a b) ∧ (SubRight mode a b ↔ AddGuard mode a (f80Neg b)) := by
  refine ⟨addRight_iff mode ha hb, ?_⟩
  rw [subRight_iff_addRight]
  exact addRight_iff mode ha (by rwa [f80IsSupported_f80Neg])

/-- The smallest number, added to itself and taken off itself. -/
theorem f80Add_iff_least :
    AddRight .roundToNearest (.of 1 0 false) (.of 1 0 false) ∧
      SubRight .roundToNearest (.of 1 0 false) (.of 1 0 false) := by
  have h := f80Add_iff .roundToNearest (a := .of 1 0 false) (b := .of 1 0 false) (by decide)
    (by decide)
  exact ⟨h.1.mpr (by unfold AddGuard SumGuard DiffGuard; decide),
    h.2.mpr (by unfold AddGuard SumGuard DiffGuard; decide)⟩

/-- One and one have no sum. -/
theorem not_addRight_one : ¬ ∀ mode a b, f80IsSupported a = true → f80IsSupported b = true →
    AddRight mode a b := by
  intro h
  obtain ⟨f, hf, -⟩ := h .roundToNearest (.of 0x8000000000000000 0x3fff false)
    (.of 0x8000000000000000 0x3fff false) (by decide) (by decide)
  have hnone : f80Add .roundToNearest (.of 0x8000000000000000 0x3fff false)
    (.of 0x8000000000000000 0x3fff false) = none := by decide +kernel
  rw [hnone] at hf
  cases hf

end Isl.Emu
