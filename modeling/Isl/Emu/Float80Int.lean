import Isl.Emu.FloatRound

/-!
Integers as 80-bit numbers. All are exact, and the way back rounds in the right
direction where there is something to round.
-/

namespace Isl.Emu

open Lib.Rounding (Direction)

/-! From integers. -/

/-- The size of a signed word. -/
theorem toNat_magnitude (i : BitVec 64) :
    (if i.msb then -i else i).toNat = i.toInt.natAbs ∧ i.toInt.natAbs ≤ 2 ^ 63 := by
  have hlt := i.isLt
  have hmsb := BitVec.msb_eq_decide i
  rw [BitVec.toInt_eq_msb_cond]
  cases h : i.msb
  · simp [h] at hmsb ⊢
    omega
  · simp only [if_true, BitVec.toNat_neg]
    simp [h] at hmsb
    omega

theorem f80FromInt_of_ne {i : BitVec 64} (hi : i ≠ 0) {k : ℕ}
    (hlow : 2 ^ 63 ≤ i.toInt.natAbs * 2 ^ k) (hhigh : i.toInt.natAbs * 2 ^ k < 2 ^ 64) :
    f80FromInt i = some (.of (BitVec.ofNat 64 (i.toInt.natAbs * 2 ^ k))
      (BitVec.ofNat 15 (16446 - k)) i.msb) := by
  have hk : k < 64 := by
    by_contra h
    have hpow : 2 ^ 64 ≤ 2 ^ k := Nat.pow_le_pow_right two_pos (by omega)
    have hpos : i.toInt.natAbs ≠ 0 := by
      intro hzero
      simp [hzero] at hlow
    have := Nat.le_mul_of_pos_left (2 ^ k) (Nat.pos_of_ne_zero hpos)
    omega
  have hword := (toNat_magnitude i).1
  have hexp : BitVec.ofInt 15 (bias 63) = 16446#15 := by decide
  rw [f80FromInt, if_neg hi, hexp]
  cases h : i.msb
  · simp only [h, Bool.false_eq_true, if_false] at hword ⊢
    rw [f80Normalize_of_shift false (by rwa [hword]) (by rwa [hword])] <;> simp [hword, expSpecial]
    omega
  · simp only [h, if_true] at hword ⊢
    rw [f80Normalize_of_shift true (by rwa [hword]) (by rwa [hword])] <;> simp [hword, expSpecial]
    omega

/-- How far an integer is from the top of the significand. -/
theorem exists_shift {n : ℕ} (hn : n ≠ 0) (hle : n < 2 ^ 64) :
    ∃ k, k ≤ 63 ∧ 2 ^ 63 ≤ n * 2 ^ k ∧ n * 2 ^ k < 2 ^ 64 := by
  have hpos : 0 < n.size := Nat.size_pos.mpr (Nat.pos_of_ne_zero hn)
  exact ⟨64 - n.size, by omega, leading_bounds hn hle⟩

theorem f80ToInt_of_shift {mode : RoundingMode} (hmode : mode = .roundToNearest ∨ mode = .roundChop)
    {n k : ℕ} (sign : Bool) (hk : k ≤ 63) (hlow : 2 ^ 63 ≤ n * 2 ^ k) (hhigh : n * 2 ^ k < 2 ^ 64) :
    f80ToInt mode (.of (BitVec.ofNat 64 (n * 2 ^ k)) (BitVec.ofNat 15 (16446 - k)) sign)
      = if sign then -BitVec.ofNat 64 n else BitVec.ofNat 64 n := by
  have hword : (BitVec.ofNat 64 (n * 2 ^ k)).toNat = n * 2 ^ k := by
    rw [BitVec.toNat_ofNat, Nat.mod_eq_of_lt hhigh]
  have hexp : (BitVec.ofNat 15 (16446 - k)).toNat = 16446 - k := by
    rw [BitVec.toNat_ofNat]
    omega
  have hdenormal : BitVec.ofNat 15 (16446 - k) ≠ expDenormal := by
    intro h
    have := congrArg BitVec.toNat h
    rw [hexp] at this
    simp [expDenormal] at this
    omega
  have hsupported := f80IsSupported_of_le sign (by rwa [hword]) hdenormal
  have hbias : ¬ bias 63 < ((16446 - k : ℕ) : ℤ) := by
    have : bias 63 = 16446 := rfl
    omega
  have hshift : (bias 63 - ((16446 - k : ℕ) : ℤ)).toNat = k := by
    have : bias 63 = 16446 := rfl
    omega
  have hright : BitVec.ofNat 64 (n * 2 ^ k) >>> k = BitVec.ofNat 64 n := by
    apply BitVec.eq_of_toNat_eq
    have hn : n ≤ n * 2 ^ k := Nat.le_mul_of_pos_right _ (Nat.two_pow_pos k)
    rw [BitVec.toNat_ushiftRight, hword, Nat.shiftRight_eq_div_pow,
      Nat.mul_div_cancel _ (Nat.two_pow_pos k), BitVec.toNat_ofNat, Nat.mod_eq_of_lt (by omega)]
  rw [f80ToInt, hsupported]
  simp only [Float80.exp_of, hexp, hbias, hshift, Bool.not_true, Bool.false_eq_true, if_false]
  rw [f80ShiftRight_of_dvd hmode (by rw [hword]; exact dvd_mul_left _ _), Float80.sign_of,
    Float80.signif_of, hright]
  cases sign <;> rfl

theorem signed_magnitude (i : BitVec 64) :
    (if i.msb then -BitVec.ofNat 64 i.toInt.natAbs else BitVec.ofNat 64 i.toInt.natAbs) = i := by
  rw [← (toNat_magnitude i).1, BitVec.ofNat_toNat, BitVec.setWidth_eq]
  cases i.msb <;> simp

theorem toInt_eq_signed (i : BitVec 64) :
    (i.toInt : ℚ) = signed i.msb (i.toInt.natAbs : ℚ) := by
  have hneg := BitVec.msb_eq_toInt (x := i)
  have habs : (i.toInt.natAbs : ℤ) = if i.msb then -i.toInt else i.toInt := by
    cases h : i.msb <;> simp [h] at hneg ⊢ <;> omega
  have hcast : (i.toInt.natAbs : ℚ) = ((i.toInt.natAbs : ℤ) : ℚ) := by simp
  rw [hcast, habs]
  cases i.msb <;> simp [signed]

/-- Every integer is converted exactly, and comes back where the rounding keeps exact
numbers. -/
theorem f80FromInt_exact (i : BitVec 64) :
    ∃ f, f80FromInt i = some f ∧ f80IsSupported f = true ∧ f.exp ≠ expSpecial ∧
      f.value = i.toInt ∧
      ∀ mode, mode = .roundToNearest ∨ mode = .roundChop → f80ToInt mode f = i := by
  by_cases hi : i = 0
  · subst hi
    refine ⟨.of 0 0 false, by decide, by decide, by decide, ?_, fun mode hmode ↦ ?_⟩
    · simp [Float80.value, signed]
    · rcases hmode with rfl | rfl <;> decide
  have hne : i.toInt.natAbs ≠ 0 := by
    rw [Int.natAbs_ne_zero]
    exact fun h ↦ hi (BitVec.eq_of_toInt_eq h)
  have hle := (toNat_magnitude i).2
  obtain ⟨k, hk, hlow, hhigh⟩ := exists_shift hne (by omega)
  have hword : (BitVec.ofNat 64 (i.toInt.natAbs * 2 ^ k)).toNat = i.toInt.natAbs * 2 ^ k := by
    rw [BitVec.toNat_ofNat, Nat.mod_eq_of_lt hhigh]
  have hexp : (BitVec.ofNat 15 (16446 - k)).toNat = 16446 - k := by
    rw [BitVec.toNat_ofNat]
    omega
  have hne_of {e : BitVec 15} (h : e.toNat ≠ 16446 - k) : BitVec.ofNat 15 (16446 - k) ≠ e := by
    rintro rfl
    exact h hexp
  have hdenormal : BitVec.ofNat 15 (16446 - k) ≠ expDenormal :=
    hne_of (by change 0 ≠ 16446 - k; omega)
  refine ⟨_, f80FromInt_of_ne hi hlow hhigh, f80IsSupported_of_le _ (by rwa [hword]) hdenormal, ?_,
    ?_, fun mode hmode ↦ ?_⟩
  · rw [Float80.exp_of]
    exact hne_of (by change 32767 ≠ 16446 - k; omega)
  · have hplace : unbias (BitVec.ofNat 15 (16446 - k)) - 63 = -(k : ℤ) := by
      rw [unbias, hexp]
      omega
    simp only [Float80.value, Float80.sign_of, Float80.signif_of, Float80.exp_of, unbiasDenormal,
      if_neg hdenormal, hword, hplace]
    rw [toInt_eq_signed, zpow_neg, zpow_natCast]
    push_cast
    rw [mul_assoc, mul_inv_cancel₀ (by positivity), mul_one]
  · rw [f80ToInt_of_shift hmode _ hk hlow hhigh, signed_magnitude]

/-! To integers. -/

/-- A finite number gives its value rounded, or the end of the range it is beyond. -/
def ToIntRight (mode : RoundingMode) (f : Float80) : Prop :=
  let n := mode.direction.toInt f.value
  (-2 ^ 63 ≤ n ∧ n < 2 ^ 63 → (f80ToInt mode f).toInt = n) ∧
    (¬ (-2 ^ 63 ≤ n ∧ n < 2 ^ 63) → f80ToInt mode f = if f.sign then int64Min else int64Max)

/-- The places of the significand behind the point. -/
def Float80.places (f : Float80) : ℤ := bias 63 - f.exp.toNat

/-- Numbers with places behind the point must not be integers where the direction is away
from zero, nor next to the limit. Those below one half must not be rounded up. -/
def ToIntGuard (mode : RoundingMode) (f : Float80) : Prop :=
  let m := f.signif.toNat
  let away := mode.direction.away f.sign = true
  f.places < 0 ∨
  (f.places = 0 ∧ f.sign = true ∧ m = 2 ^ 63) ∨
  (0 < f.places ∧ f.places < 64 ∧ (away → ¬ 2 ^ f.places.toNat ∣ m) ∧
    ¬ ((mode = .roundToNearest ∨ away) ∧ f.sign = false ∧ f.places = 1 ∧ m = 2 ^ 64 - 1)) ∨
  (64 ≤ f.places ∧ (away → m = 0) ∧ (mode = .roundToNearest → f.places = 64 → m ≤ 2 ^ 63))

/-- The word of a magnitude with a sign. -/
def signedWord (sign : Bool) (c : ℕ) : BitVec 64 :=
  if sign then -BitVec.ofNat 64 c else BitVec.ofNat 64 c

theorem signedWord_eq (sign : Bool) (c : ℕ) :
    signedWord sign c = BitVec.ofInt 64 (Lib.Rounding.signed sign (c : ℤ)) := by
  cases sign <;> simp [signedWord, BitVec.ofInt_neg]

theorem toInt_signedWord {sign : Bool} {c : ℕ} (hle : c ≤ 2 ^ 63)
    (hlt : sign = false → c < 2 ^ 63) :
    (signedWord sign c).toInt = Lib.Rounding.signed sign (c : ℤ) := by
  rw [signedWord_eq, BitVec.toInt_ofInt_eq_self (by norm_num)] <;> cases sign <;> simp at hlt ⊢ <;>
    omega

theorem f80ToInt_of_places (mode : RoundingMode) {f : Float80} (hf : f80IsSupported f = true)
    (hplaces : 0 ≤ f.places) :
    f80ToInt mode f = signedWord f.sign (f80ShiftRight mode f f.places.toNat).signif.toNat := by
  have hbias : ¬ bias 63 < f.exp.toNat := by
    rw [Float80.places] at hplaces
    omega
  have hsign : (f80ShiftRight mode f f.places.toNat).sign = f.sign := Float80.sign_of _ _ _
  rw [f80ToInt, hf]
  simp only [Bool.not_true, Bool.false_eq_true, if_false, hbias]
  change (if !(f80ShiftRight mode f f.places.toNat).sign then _ else _) = _
  rw [hsign, signedWord, BitVec.ofNat_toNat, BitVec.setWidth_eq]
  cases f.sign <;> rfl

theorem f80ToInt_of_large {mode : RoundingMode} {f : Float80} (hf : f80IsSupported f = true)
    (hplaces : f.places < 0) : f80ToInt mode f = if f.sign then int64Min else int64Max := by
  have hbias : bias 63 < f.exp.toNat := by
    rw [Float80.places] at hplaces
    omega
  rw [f80ToInt, hf]
  simp only [Bool.not_true, Bool.false_eq_true, if_false, if_pos hbias]
  cases f.sign <;> rfl

/-- The value as a quotient, where `shift` places are behind the point. -/
theorem Float80.value_eq_quotient {f : Float80} {shift : ℕ}
    (hshift : unbiasDenormal f.exp - 63 = -(shift : ℤ)) :
    f.value = Lib.Rounding.signed f.sign ((f.signif.toNat : ℚ) / (2 ^ shift : ℕ)) := by
  rw [Float80.value, hshift, zpow_neg, zpow_natCast]
  push_cast
  rfl

theorem toInt_value (mode : RoundingMode) {f : Float80} {shift : ℕ}
    (hshift : unbiasDenormal f.exp - 63 = -(shift : ℤ)) :
    mode.direction.toInt f.value = Lib.Rounding.signed f.sign
      (mode.direction.quotient f.sign f.signif.toNat (2 ^ shift) : ℤ) := by
  rw [Float80.value_eq_quotient hshift, Lib.Rounding.toInt_quotient _ (Nat.two_pow_pos _)]

/-- Where `q` is right and `c` is given, no more than one place of the range apart. -/
theorem toIntRight_iff {mode : RoundingMode} {f : Float80} {q c : ℕ}
    (hq : mode.direction.toInt f.value = Lib.Rounding.signed f.sign (q : ℤ))
    (hc : f80ToInt mode f = signedWord f.sign c) (hqle : q ≤ 2 ^ 63) (hcle : c ≤ 2 ^ 63)
    (hlimit : q = 2 ^ 63 → c = 2 ^ 63) :
    ToIntRight mode f ↔ c = q ∧ ¬ (f.sign = false ∧ q = 2 ^ 63) := by
  have hmin : signedWord false (2 ^ 63) = int64Min := by decide
  have hne : int64Min ≠ int64Max := by decide
  simp only [ToIntRight, hq, hc]
  cases hsign : f.sign
  · by_cases hrange : q = 2 ^ 63
    · simp only [hrange, hlimit hrange, hmin, Lib.Rounding.signed_false]
      simp [hne]
    · by_cases hc' : c = 2 ^ 63
      · have hneg : int64Min.toInt = -2 ^ 63 := by decide
        simp only [Lib.Rounding.signed_false, hc', hmin, hneg]
        omega
      · rw [toInt_signedWord hcle (fun _ ↦ by omega)]
        simp only [Lib.Rounding.signed_false]
        omega
  · rw [toInt_signedWord hcle (by simp)]
    have hrange : -2 ^ 63 ≤ -(q : ℤ) ∧ -(q : ℤ) < 2 ^ 63 := by omega
    simp only [Lib.Rounding.signed_true, hrange, and_self, true_implies, not_true, false_implies,
      and_true, Bool.true_eq_false, false_and, not_false_eq_true]
    omega

theorem quotient_eq_limit_iff (mode : RoundingMode) (sign : Bool) {m shift : ℕ} (hm : m < 2 ^ 64)
    (hshift : 0 < shift) :
    mode.direction.quotient sign m (2 ^ shift) = 2 ^ 63 ↔
      (mode = .roundToNearest ∨ mode.direction.away sign = true) ∧ shift = 1 ∧ m = 2 ^ 64 - 1 := by
  by_cases hone : shift = 1
  · subst hone
    have hodd : Odd (2 ^ 63 - 1) := by decide
    have hcarry : mode.direction.carries sign (2 ^ 64 - 1) (2 ^ 1) ↔
        mode = .roundToNearest ∨ mode.direction.away sign = true := by
      cases mode <;> simp [RoundingMode.direction, Direction.carries, Direction.away]
      exact hodd
    by_cases hlast : m = 2 ^ 64 - 1
    · rw [Direction.quotient, hlast]
      simp only [hcarry]
      split <;> simp [*]
    · have hne : mode.direction.quotient sign m (2 ^ 1) ≠ 2 ^ 63 := by
        by_cases hdvd : 2 ^ 1 ∣ m
        · rw [Direction.quotient_of_dvd _ sign (Nat.two_pow_pos 1) hdvd]
          omega
        · rw [Direction.quotient]
          split <;> omega
      exact ⟨fun h ↦ absurd h hne, fun h ↦ absurd h.2.2 hlast⟩
  · have hquarter : m / 2 ^ shift ≤ m / 2 ^ 2 :=
      Nat.div_le_div_left (Nat.pow_le_pow_right two_pos (by omega)) (by norm_num)
    simp only [hone, false_and, and_false, iff_false]
    rw [Direction.quotient]
    split <;> omega

/-- Numbers with up to 63 places behind the point. -/
theorem toIntRight_iff_of_shift {mode : RoundingMode} {f : Float80} (hf : f80IsSupported f = true)
    {shift : ℕ} (hplaces : f.places = shift) (hpos : 0 < shift) (hle : shift ≤ 63) :
    ToIntRight mode f ↔ (mode.direction.away f.sign = true → ¬ 2 ^ shift ∣ f.signif.toNat) ∧
      ¬ ((mode = .roundToNearest ∨ mode.direction.away f.sign = true) ∧ f.sign = false ∧
        shift = 1 ∧ f.signif.toNat = 2 ^ 64 - 1) := by
  have hlt := f.signif.isLt
  have hbias : bias 63 = 16446 := rfl
  have hexp : unbiasDenormal f.exp - 63 = -(shift : ℤ) := by
    have hdenormal : f.exp ≠ expDenormal := by
      intro h
      rw [Float80.places, h, hbias] at hplaces
      simp [expDenormal] at hplaces
      omega
    rw [unbiasDenormal, if_neg hdenormal, unbias]
    rw [Float80.places, hbias] at hplaces
    omega
  have hc := f80ToInt_of_places mode hf (by omega)
  rw [hplaces, Int.toNat_natCast, toNat_f80ShiftRight, if_neg hpos.ne', if_pos hle] at hc
  have hhalf : f.signif.toNat / 2 ^ shift ≤ f.signif.toNat / 2 :=
    Nat.div_le_div_left (Nat.le_self_pow hpos.ne' 2) two_pos
  have hshifted := mode.shifted_le f.sign f.signif.toNat shift
  have hquotient := mode.quotient_le_shifted f.sign f.signif.toNat hpos (show shift ≤ 65 by omega)
  rw [toIntRight_iff (toInt_value mode hexp) hc (by omega) (by omega) (by omega),
    mode.shifted_eq_iff _ _ hpos (by omega), quotient_eq_limit_iff mode f.sign hlt hpos]
  grind

/-- Numbers of which nothing is before the point, and the first place behind it is free. -/
theorem toIntRight_iff_of_small {mode : RoundingMode} {f : Float80} (hf : f80IsSupported f = true)
    (hplaces : 64 ≤ f.places) :
    ToIntRight mode f ↔ (mode.direction.away f.sign = true → f.signif.toNat = 0) ∧
      (mode = .roundToNearest → f.places = 64 → f.signif.toNat ≤ 2 ^ 63) := by
  have hlt := f.signif.isLt
  have hbias : bias 63 = 16446 := rfl
  obtain ⟨shift, hexp, hshift, hfirst⟩ : ∃ shift : ℕ, unbiasDenormal f.exp - 63 = -(shift : ℤ) ∧
      64 ≤ shift ∧ (f.places = 64 ↔ shift = 64) := by
    refine ⟨(63 - unbiasDenormal f.exp).toNat, ?_⟩
    rw [Float80.places, hbias] at hplaces ⊢
    rw [unbiasDenormal, unbias]
    by_cases hdenormal : f.exp = expDenormal
    · simp [hdenormal, expDenormal]
    · rw [if_neg hdenormal]
      omega
  have hpow : 2 ^ 64 ≤ 2 ^ shift := Nat.pow_le_pow_right two_pos hshift
  have hc := f80ToInt_of_places mode hf (by omega)
  rw [toNat_f80ShiftRight, if_neg (by omega), if_neg (by omega)] at hc
  have hdiv : f.signif.toNat / 2 ^ shift = 0 := Nat.div_eq_of_lt (by omega)
  have hmod : f.signif.toNat % 2 ^ shift = f.signif.toNat := Nat.mod_eq_of_lt (by omega)
  have hle : mode.direction.quotient f.sign f.signif.toNat (2 ^ shift) ≤ 1 := by
    rw [Direction.quotient, hdiv]
    split <;> omega
  have hcarries : mode.direction.carries f.sign f.signif.toNat (2 ^ shift) ↔
      (mode = .roundToNearest ∧ f.places = 64 ∧ 2 ^ 63 < f.signif.toNat) ∨
        (mode.direction.away f.sign = true ∧ f.signif.toNat ≠ 0) := by
    have hnearest : 2 ^ shift < 2 * f.signif.toNat ↔ f.places = 64 ∧ 2 ^ 63 < f.signif.toNat := by
      rw [hfirst]
      constructor
      · intro h
        have hone : shift = 64 := by
          by_contra hne
          have : 2 ^ 65 ≤ 2 ^ shift := Nat.pow_le_pow_right two_pos (by omega)
          omega
        subst hone
        omega
      · rintro ⟨rfl, h⟩
        omega
    cases mode <;>
      simp [RoundingMode.direction, Direction.carries, Direction.away, hmod, hdiv, hnearest]
  rw [toIntRight_iff (toInt_value mode hexp) hc (by omega) (by omega) (by omega)]
  have hzero : mode.direction.quotient f.sign f.signif.toNat (2 ^ shift) = 0 ↔
      ¬ mode.direction.carries f.sign f.signif.toNat (2 ^ shift) := by
    rw [Direction.quotient, hdiv, Nat.zero_add, ite_eq_right_iff]
    simp
  grind

/-- Numbers that are as large as the range or larger. -/
theorem toIntRight_of_large {mode : RoundingMode} {f : Float80} (hf : f80IsSupported f = true)
    (hplaces : f.places < 0) : ToIntRight mode f := by
  have hbias : bias 63 = 16446 := rfl
  have hnormal : f.exp ≠ expDenormal := by
    intro h
    rw [Float80.places, h, hbias] at hplaces
    simp [expDenormal] at hplaces
  have hlow := ((f80IsSupported_iff f).mp hf).mp hnormal
  obtain ⟨k, hk, hpos⟩ : ∃ k : ℕ, unbiasDenormal f.exp - 63 = k ∧ 0 < k := by
    refine ⟨(-f.places).toNat, ?_⟩
    rw [unbiasDenormal, if_neg hnormal, unbias]
    rw [Float80.places, hbias] at hplaces ⊢
    omega
  have hn : mode.direction.toInt f.value
      = Lib.Rounding.signed f.sign ((f.signif.toNat * 2 ^ k : ℕ) : ℤ) := by
    have hvalue : f.value
        = ((Lib.Rounding.signed f.sign ((f.signif.toNat * 2 ^ k : ℕ) : ℤ) : ℤ) : ℚ) := by
      rw [Lib.Rounding.signed_intCast, Float80.value, hk, zpow_natCast]
      push_cast
      rfl
    rw [hvalue, Direction.toInt_intCast]
  have hlarge : 2 ^ 64 ≤ f.signif.toNat * 2 ^ k := by
    have := Nat.mul_le_mul hlow (Nat.pow_le_pow_right two_pos hpos)
    omega
  refine ⟨fun h ↦ absurd h ?_, fun _ ↦ f80ToInt_of_large hf hplaces⟩
  rw [hn]
  cases f.sign
  · rw [Lib.Rounding.signed_false]
    omega
  · rw [Lib.Rounding.signed_true]
    omega

/-- Numbers of which all places are before the point. -/
theorem toIntRight_iff_of_whole {mode : RoundingMode} {f : Float80} (hf : f80IsSupported f = true)
    (hplaces : f.places = 0) :
    ToIntRight mode f ↔ f.sign = true ∧ f.signif.toNat = 2 ^ 63 := by
  have hlt := f.signif.isLt
  have hbias : bias 63 = 16446 := rfl
  have hnormal : f.exp ≠ expDenormal := by
    intro h
    rw [Float80.places, h, hbias] at hplaces
    simp [expDenormal] at hplaces
  have hlow := ((f80IsSupported_iff f).mp hf).mp hnormal
  have hexp : unbiasDenormal f.exp - 63 = -((0 : ℕ) : ℤ) := by
    rw [unbiasDenormal, if_neg hnormal, unbias]
    rw [Float80.places, hbias] at hplaces
    omega
  have hc := f80ToInt_of_places mode hf (by omega)
  rw [hplaces, toNat_f80ShiftRight, Int.toNat_zero, if_pos rfl] at hc
  have hn := toInt_value mode hexp
  rw [Direction.quotient_of_dvd _ _ (Nat.two_pow_pos 0) (one_dvd _), pow_zero, Nat.div_one] at hn
  have hword : (signedWord f.sign f.signif.toNat).toNat
      = if f.sign then 2 ^ 64 - f.signif.toNat else f.signif.toNat := by
    cases f.sign <;> simp [signedWord]
    omega
  simp only [ToIntRight, hn, hc, ← BitVec.toNat_inj, hword]
  have hmin : int64Min.toNat = 2 ^ 63 := by decide
  have hmax : int64Max.toNat = 2 ^ 63 - 1 := by decide
  cases hsign : f.sign
  · have hrange : ¬ ((f.signif.toNat : ℤ) < 2 ^ 63) := by omega
    simp only [Lib.Rounding.signed_false, hrange, and_false, false_implies, true_and,
      not_false_eq_true, true_implies, Bool.false_eq_true, if_false, hmax, false_and, iff_false]
    omega
  · by_cases hend : f.signif.toNat = 2 ^ 63
    · rw [hend, toInt_signedWord le_rfl (by simp)]
      simp
    · have hrange : ¬ (-2 ^ 63 ≤ -(f.signif.toNat : ℤ)) := by omega
      simp only [Lib.Rounding.signed_true, hrange, false_and, false_implies, true_and,
        not_false_eq_true, true_implies, if_true, hmin, hend, and_false, iff_false]
      omega

/-- When the conversion to an integer is right. -/
theorem f80ToInt_iff (mode : RoundingMode) {f : Float80} (hf : f80IsSupported f = true)
    (_hfinite : f.exp ≠ expSpecial) : ToIntRight mode f ↔ ToIntGuard mode f := by
  unfold ToIntGuard
  rcases lt_trichotomy f.places 0 with h | h | h
  · exact iff_of_true (toIntRight_of_large hf h) (.inl h)
  · rw [toIntRight_iff_of_whole hf h]
    simp [h]
  · obtain ⟨shift, hshift⟩ : ∃ shift : ℕ, f.places = shift := ⟨f.places.toNat, by omega⟩
    rcases lt_or_ge shift 64 with hlt | hge
    · rw [toIntRight_iff_of_shift hf hshift (by omega) (by omega), hshift]
      simp only [Int.toNat_natCast]
      grind
    · rw [toIntRight_iff_of_small hf (by omega), hshift]
      grind

/-- An integer and one half, rounded to an even integer. -/
theorem f80ToInt_iff_half :
    ToIntRight .roundToNearest (.of 0xe000000000000000 0x4000 false) ↔
      ToIntGuard .roundToNearest (.of 0xe000000000000000 0x4000 false) :=
  f80ToInt_iff .roundToNearest (by decide) (by decide)

/-- Three is rounded up to four. -/
theorem not_toIntRight_three : ¬ ∀ mode f, f80IsSupported f = true → f.exp ≠ expSpecial →
    ToIntRight mode f := by
  intro h
  have hthree := h .roundUp (.of 0xc000000000000000 0x4000 false) (by decide) (by decide)
  have hvalue : RoundingMode.roundUp.direction.toInt
      (Float80.of 0xc000000000000000 0x4000 false).value = 3 := by
    have hplaces : unbiasDenormal (Float80.of 0xc000000000000000 0x4000 false).exp - 63
        = -((62 : ℕ) : ℤ) := by decide
    rw [toInt_value .roundUp hplaces]
    decide
  have hgiven : (f80ToInt .roundUp (.of 0xc000000000000000 0x4000 false)).toInt = 4 := by decide
  have := hthree.1 (by rw [hvalue]; norm_num)
  rw [hvalue, hgiven] at this
  norm_num at this

end Isl.Emu
