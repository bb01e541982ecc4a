import Isl.Emu.Float80Norm

/-!
Products and quotients. A product is as right as the rounding of its 128 bits. The
division reads through a null pointer, so only the quotients come back that are no
division.
-/

namespace Isl.Emu

open Lib.Rounding (Direction Format Rounded)

/-- The number with the sign it has. -/
theorem of_u128NormalizeRound (mode : RoundingMode) (signif : Uint128) (exp : ℤ) (sign : Bool) :
    Float80.of (u128NormalizeRound mode signif exp sign).signif
      (u128NormalizeRound mode signif exp sign).exp sign = u128NormalizeRound mode signif exp sign := by
  conv_rhs => rw [← Float80.of_fields (u128NormalizeRound mode signif exp sign),
    sign_u128NormalizeRound]

/-! Products. -/

/-- What the product of two numbers must be. -/
def MulRight (mode : RoundingMode) (a b : Float80) : Prop :=
  if f80Isnan a ∨ f80Isnan b ∨ (f80Iszero a ∧ f80Isinf b) ∨ (f80Isinf a ∧ f80Iszero b) then
    f80Isnan (f80Mul mode a b) = true
  else if f80Isinf a ∨ f80Isinf b then (f80Mul mode a b).Is (.infinite (a.sign ^^ b.sign))
  else Rounds mode (f80Mul mode a b) (a.value * b.value) ∧
    (f80Mul mode a b).sign = (a.sign ^^ b.sign)

/-- Where both are finite numbers, the 128 bits of the product must be rounded right. -/
def MulGuard (mode : RoundingMode) (a b : Float80) : Prop :=
  a.exp ≠ expSpecial → b.exp ≠ expSpecial →
    NormalizeGuard mode (a.sign ^^ b.sign) (a.signif.toNat * b.signif.toNat)
      (unbiasDenormal a.exp + unbiasDenormal b.exp + 1)

theorem signed_xor_mul (s t : Bool) (x y : ℚ) :
    Lib.Rounding.signed (s ^^ t) (x * y) = Lib.Rounding.signed s x * Lib.Rounding.signed t y := by
  cases s <;> cases t <;> simp

theorem value_mul (a b : Float80) : a.value * b.value
    = scaled (a.sign ^^ b.sign) (a.signif.toNat * b.signif.toNat)
        (unbiasDenormal a.exp + unbiasDenormal b.exp + 1) := by
  have hplace : unbiasDenormal a.exp + unbiasDenormal b.exp + 1 - 127
      = (unbiasDenormal a.exp - 63) + (unbiasDenormal b.exp - 63) := by ring
  rw [scaled, hplace, zpow_add₀ two_ne_zero, Nat.cast_mul, mul_mul_mul_comm, signed_xor_mul]
  rfl

section Finite

variable {mode : RoundingMode} {a b : Float80} (ha : f80IsSupported a = true)
  (hb : f80IsSupported b = true) (ha' : a.exp ≠ expSpecial) (hb' : b.exp ≠ expSpecial)

theorem unbiasDenormal_le {f : Float80} (hf : f.exp ≠ expSpecial) : unbiasDenormal f.exp ≤ 16383 := by
  have hlt := f.exp.isLt
  have hne : f.exp.toNat ≠ 32767 := fun h ↦ hf (BitVec.eq_of_toNat_eq h)
  rw [unbiasDenormal, unbias]
  split <;> omega

theorem signif_mul_lt (a b : Float80) :
    a.signif.toNat * b.signif.toNat < 2 ^ 128 - 2 ^ 64 := by
  have h := Nat.mul_le_mul (Nat.le_sub_one_of_lt a.signif.isLt) (Nat.le_sub_one_of_lt b.signif.isLt)
  omega

theorem toNat_signif_mul (a b : Float80) :
    (uint128FromUint64 a.signif * uint128FromUint64 b.signif).toNat
      = a.signif.toNat * b.signif.toNat := by
  have hwide (x : Qword) : (uint128FromUint64 x).toNat = x.toNat := by
    rw [uint128FromUint64, BitVec.toNat_setWidth, Nat.mod_eq_of_lt]
    exact lt_of_lt_of_le x.isLt (by norm_num)
  have hlt := signif_mul_lt a b
  rw [BitVec.toNat_mul, hwide, hwide, Nat.mod_eq_of_lt (by omega)]

include ha hb ha' hb'

theorem f80Mul_finite : f80Mul mode a b = u128NormalizeRound mode
    (uint128FromUint64 a.signif * uint128FromUint64 b.signif)
    (unbiasDenormal a.exp + unbiasDenormal b.exp + 1) (a.sign ^^ b.sign) := by
  rw [f80Mul]
  simp only [ha, hb, f80Isnan_of_finite ha', f80Isnan_of_finite hb', f80Isinf_of_finite ha',
    f80Isinf_of_finite hb', Bool.not_true, Bool.or_self, Bool.false_eq_true, if_false,
    of_u128NormalizeRound]

theorem mulRight_finite_iff : MulRight mode a b ↔ MulGuard mode a b := by
  have hword := toNat_signif_mul a b
  have hlt := signif_mul_lt a b
  have hle := unbiasDenormal_le ha'
  have hle' := unbiasDenormal_le hb'
  have hsmall : a.signif.toNat * b.signif.toNat < 2 ^ 64 →
      unbiasDenormal a.exp + unbiasDenormal b.exp + 1 ≤ 16447 := by
    intro h
    by_cases hnormal : a.exp ≠ expDenormal ∧ b.exp ≠ expDenormal
    · have hprod := Nat.mul_le_mul (((f80IsSupported_iff a).mp ha).mp hnormal.1)
        (((f80IsSupported_iff b).mp hb).mp hnormal.2)
      omega
    · have hmin {f : Float80} (hf : f.exp = expDenormal) : unbiasDenormal f.exp = -16382 := by
        rw [unbiasDenormal, if_pos hf]
        rfl
      rcases not_and_or.mp hnormal with h | h
      · have := hmin (not_not.mp h)
        omega
      · have := hmin (not_not.mp h)
        omega
  have hrounds := u128NormalizeRound_rounds_iff mode (a.sign ^^ b.sign)
    (uint128FromUint64 a.signif * uint128FromUint64 b.signif) (fun _ ↦ by rw [hword]; exact hlt)
    (show unbiasDenormal a.exp + unbiasDenormal b.exp + 1 ≤ 32767 by omega)
    (by rw [hword]; exact hsmall)
  rw [hword, ← value_mul] at hrounds
  simp only [MulRight, MulGuard, f80Isnan_of_finite ha', f80Isnan_of_finite hb',
    f80Isinf_of_finite ha', f80Isinf_of_finite hb', f80Mul_finite ha hb ha' hb', hrounds,
    sign_u128NormalizeRound, Bool.false_eq_true, and_false, false_and, or_self, if_false, and_true,
    ha', hb', ne_eq, not_false_eq_true, true_implies]

end Finite

theorem is_inf (sign : Bool) :
    (Float80.of f80Inf.signif f80Inf.exp sign).Is (.infinite sign) := by
  cases sign <;> simp only [Float80.Is] <;> decide

/-- Products with an infinity, or with what is no number. -/
theorem mulRight_special {mode : RoundingMode} {a b : Float80} (ha : f80IsSupported a = true)
    (hb : f80IsSupported b = true) (h : a.exp = expSpecial ∨ b.exp = expSpecial) :
    MulRight mode a b := by
  have hspecial : f80Isnan a = true ∨ f80Isnan b = true ∨ f80Isinf a = true ∨ f80Isinf b = true := by
    rcases h with h | h
    · rcases nan_or_inf ha h with h | h <;> simp [h]
    · rcases nan_or_inf hb h with h | h <;> simp [h]
  by_cases hnan : f80Isnan a = true ∨ f80Isnan b = true
  · have hmul : f80Mul mode a b = f80Nan := by
      rw [f80Mul]
      rcases hnan with h | h <;> simp only [ha, hb, h, Bool.not_true, Bool.or_self,
        Bool.false_eq_true, if_true, ite_self]
    rw [MulRight, hmul, if_pos (hnan.elim .inl fun h ↦ .inr (.inl h))]
    exact f80Isnan_nan
  obtain ⟨hna, hnb⟩ := not_or.mp hnan
  have hinf : f80Isinf a = true ∨ f80Isinf b = true := by
    rcases hspecial with h | h | h
    · exact absurd h hna
    · exact absurd h hnb
    · exact h
  have hinf' : (f80Isinf a || f80Isinf b) = true := by rwa [Bool.or_eq_true]
  by_cases hzero : f80Iszero a = true ∨ f80Iszero b = true
  · have hzero' : (f80Iszero a || f80Iszero b) = true := by rwa [Bool.or_eq_true]
    have hmul : f80Mul mode a b = f80Nan := by
      rw [f80Mul]
      simp only [ha, hb, hna, hnb, hinf', hzero', Bool.not_true, Bool.or_self, Bool.false_eq_true,
        if_false, if_true]
    have hpair : (f80Iszero a = true ∧ f80Isinf b = true) ∨
        (f80Isinf a = true ∧ f80Iszero b = true) := by
      have hdisjoint {f : Float80} (h : f80Isinf f = true) : ¬ f80Iszero f = true := by
        simp [f80Iszero_of_inf h]
      rcases hinf with h | h
      · exact .inr ⟨h, hzero.resolve_left (hdisjoint h)⟩
      · exact .inl ⟨hzero.resolve_right (hdisjoint h), h⟩
    rw [MulRight, hmul, if_pos (.inr (.inr hpair))]
    exact f80Isnan_nan
  · have hzero' : (f80Iszero a || f80Iszero b) = false := by
      rwa [← Bool.not_eq_true, Bool.or_eq_true]
    have hmul : f80Mul mode a b = .of f80Inf.signif f80Inf.exp (a.sign ^^ b.sign) := by
      rw [f80Mul]
      simp only [ha, hb, hna, hnb, hinf', hzero', Bool.not_true, Bool.or_self, Bool.false_eq_true,
        if_false, if_true]
    obtain ⟨hza, hzb⟩ := not_or.mp hzero
    simp only [MulRight, hmul, hna, hnb, hza, hzb, hinf, Bool.false_eq_true, false_and, and_false,
      or_self, if_false, if_true]
    exact is_inf _

/-- When a product is right. -/
theorem f80Mul_iff (mode : RoundingMode) {a b : Float80} (ha : f80IsSupported a = true)
    (hb : f80IsSupported b = true) : MulRight mode a b ↔ MulGuard mode a b := by
  by_cases ha' : a.exp = expSpecial
  · exact iff_of_true (mulRight_special ha hb (.inl ha')) (fun h ↦ absurd ha' h)
  by_cases hb' : b.exp = expSpecial
  · exact iff_of_true (mulRight_special ha hb (.inr hb')) (fun _ h ↦ absurd hb' h)
  exact mulRight_finite_iff ha hb ha' hb'

/-- The smallest number, doubled. -/
theorem f80Mul_iff_two :
    MulRight .roundToNearest (.of 1 0 false) (.of 0x8000000000000000 0x4000 false) :=
  (f80Mul_iff .roundToNearest (by decide) (by decide)).mpr
    fun _ _ ↦ .inl ⟨by decide, by decide, by decide, by decide⟩

/-- One and one have a product that is no number. -/
theorem not_mulRight_one : ¬ ∀ mode a b, f80IsSupported a = true → f80IsSupported b = true →
    MulRight mode a b := by
  intro h
  have hone := h .roundToNearest (.of 0x8000000000000000 0x3fff false)
    (.of 0x8000000000000000 0x3fff false) (by decide) (by decide)
  have hgiven : f80IsSupported (f80Mul .roundToNearest (.of 0x8000000000000000 0x3fff false)
    (.of 0x8000000000000000 0x3fff false)) = false := by decide +kernel
  rw [MulRight, if_neg (by decide), if_neg (by decide)] at hone
  exact absurd (hone.1.supported.symm.trans hgiven) (by decide)

/-! Quotients. -/

/-- What the quotient of two numbers must be. -/
def DivRight (mode : RoundingMode) (a b : Float80) : Prop :=
  ∃ f, f80Div mode a b = some f ∧
    if f80Isnan a ∨ f80Isnan b ∨ (f80Iszero a ∧ f80Iszero b) ∨ (f80Isinf a ∧ f80Isinf b) then
      f80Isnan f = true
    else if f80Isinf a ∨ f80Iszero b then f.Is (.infinite (a.sign ^^ b.sign))
    else if f80Isinf b then f80Iszero f = true
    else Rounds mode f (a.value / b.value)

/-- Nothing is divided. -/
def DivGuard (a b : Float80) : Prop :=
  f80Isnan a ∨ f80Isnan b ∨ f80Isinf a ∨ f80Isinf b ∨ f80Iszero b

theorem f80Isnan_signed_nan (sign : Bool) :
    f80Isnan (.of f80Nan.signif f80Nan.exp sign) = true := by
  cases sign <;> decide

theorem f80Iszero_signed_zero (sign : Bool) : f80Iszero (.of 0 0 sign) = true := by
  cases sign <;> decide

section Quotient

variable {mode : RoundingMode} {a b : Float80} (ha : f80IsSupported a = true)
  (hb : f80IsSupported b = true)

include ha hb

/-- The division has nowhere to put whether it overflows. -/
theorem f80Div_none (h : ¬ DivGuard a b) : f80Div mode a b = none := by
  simp only [DivGuard, not_or, Bool.not_eq_true] at h
  obtain ⟨hna, hnb, hia, hib, hzb⟩ := h
  rw [f80Div]
  simp only [ha, hb, hna, hnb, hia, hib, hzb, Bool.not_true, Bool.or_self, Bool.false_eq_true,
    if_false]
  rfl

theorem divRight_nan (h : f80Isnan a = true ∨ f80Isnan b = true) : DivRight mode a b := by
  have hdiv : f80Div mode a b = some f80Nan := by
    rw [f80Div]
    rcases h with h | h <;> simp only [ha, hb, h, Bool.not_true, Bool.or_self, Bool.false_eq_true,
      if_true, ite_self]
  refine ⟨f80Nan, hdiv, ?_⟩
  rw [if_pos (h.elim .inl fun h ↦ .inr (.inl h))]
  exact f80Isnan_nan

variable (hna : f80Isnan a = false) (hnb : f80Isnan b = false)

include hna hnb

theorem divRight_inf (hia : f80Isinf a = true) : DivRight mode a b := by
  have hza := f80Iszero_of_inf hia
  cases hib : f80Isinf b
  · refine ⟨.of f80Inf.signif f80Inf.exp (a.sign ^^ b.sign), ?_, ?_⟩
    · simp only [f80Div, ha, hb, hna, hnb, hia, hib, Bool.not_true, Bool.or_self,
        Bool.false_eq_true, if_false, if_true]
    · simp only [hna, hnb, hza, hia, hib, Bool.false_eq_true, false_and, and_false, or_self, if_false,
        true_or, if_true]
      exact is_inf _
  · refine ⟨f80Nan, ?_, ?_⟩
    · simp only [f80Div, ha, hb, hna, hnb, hia, hib, Bool.not_true, Bool.or_self,
        Bool.false_eq_true, if_false, if_true]
    · rw [if_pos (.inr (.inr (.inr ⟨hia, hib⟩)))]
      exact f80Isnan_nan

theorem divRight_by_inf (hia : f80Isinf a = false) (hib : f80Isinf b = true) :
    DivRight mode a b := by
  have hzb := f80Iszero_of_inf hib
  refine ⟨.of 0 0 (a.sign ^^ b.sign), ?_, ?_⟩
  · simp only [f80Div, ha, hb, hna, hnb, hia, hib, Bool.not_true, Bool.or_self, Bool.false_eq_true,
      if_false, if_true]
  · simp only [hna, hnb, hia, hib, hzb, Bool.false_eq_true, false_and, and_false, or_self, if_false,
      if_true]
    exact f80Iszero_signed_zero _

theorem divRight_by_zero (hia : f80Isinf a = false) (hib : f80Isinf b = false)
    (hzb : f80Iszero b = true) : DivRight mode a b := by
  cases hza : f80Iszero a
  · refine ⟨.of f80Inf.signif f80Inf.exp (a.sign ^^ b.sign), ?_, ?_⟩
    · simp only [f80Div, ha, hb, hna, hnb, hia, hib, hza, hzb, Bool.not_true, Bool.or_self,
        Bool.false_eq_true, if_false, if_true]
    · simp only [hna, hnb, hza, hia, hzb, Bool.false_eq_true, false_and, or_self, if_false,
        or_true, if_true]
      exact is_inf _
  · refine ⟨.of f80Nan.signif f80Nan.exp (a.sign ^^ b.sign), ?_, ?_⟩
    · simp only [f80Div, ha, hb, hna, hnb, hia, hib, hza, hzb, Bool.not_true, Bool.or_self,
        Bool.false_eq_true, if_false, if_true]
    · rw [if_pos (.inr (.inr (.inl ⟨hza, hzb⟩)))]
      exact f80Isnan_signed_nan _

end Quotient

/-- When a quotient is right, and when there is one. -/
theorem f80Div_iff (mode : RoundingMode) {a b : Float80} (ha : f80IsSupported a = true)
    (hb : f80IsSupported b = true) : DivRight mode a b ↔ DivGuard a b := by
  constructor
  · rintro ⟨f, hf, -⟩
    by_contra h
    rw [f80Div_none ha hb h] at hf
    cases hf
  · intro h
    by_cases hnan : f80Isnan a = true ∨ f80Isnan b = true
    · exact divRight_nan ha hb hnan
    obtain ⟨hna, hnb⟩ := not_or.mp hnan
    rw [Bool.not_eq_true] at hna hnb
    cases hia : f80Isinf a
    · cases hib : f80Isinf b
      · simp only [DivGuard, hna, hnb, hia, hib, Bool.false_eq_true, false_or] at h
        exact divRight_by_zero ha hb hna hnb hia hib h
      · exact divRight_by_inf ha hb hna hnb hia hib
    · exact divRight_inf ha hb hna hnb hia

/-- One by zero. -/
theorem f80Div_iff_zero : DivRight .roundToNearest (.of 0x8000000000000000 0x3fff false) f80Zero :=
  (f80Div_iff .roundToNearest (by decide) (by decide)).mpr (by unfold DivGuard; decide)

/-- One by one reads through the null pointer. -/
theorem not_divRight_one : ¬ ∀ mode a b, f80IsSupported a = true → f80IsSupported b = true →
    DivRight mode a b := by
  intro h
  obtain ⟨f, hf, -⟩ := h .roundToNearest (.of 0x8000000000000000 0x3fff false)
    (.of 0x8000000000000000 0x3fff false) (by decide) (by decide)
  rw [f80Div_none (by decide) (by decide) (by unfold DivGuard; decide)] at hf
  cases hf

end Isl.Emu
