import Isl.Emu.FloatRound

/-! `u128_shift_right_round` at all shifts, beside the rounded quotient. -/

namespace Isl.Emu

open Lib.Rounding (Direction)

/-- The result is the quotient, as the direction rounds it with the sign. -/
def ShiftsRight (mode : RoundingMode) (i : Uint128) (shift : ℕ) (sign : Bool) : Prop :=
  Lib.Rounding.signed sign ((u128ShiftRightRound mode i shift sign).toNat : ℤ) =
    mode.direction.toInt (Lib.Rounding.signed sign ((i.toNat : ℚ) / (2 ^ shift : ℕ)))

/-- The bits behind the guard bit are not all zero, but the word that is made of the last
64 of them is, and the quotient is even. -/
def LosesRest (n shift : ℕ) : Prop :=
  n.testBit (shift - 1) = true ∧ n % 2 ^ 64 = 0 ∧ n % 2 ^ (shift - 1) ≠ 0 ∧ Even (n / 2 ^ shift)

/-- A direction away from zero must have something to round, and nothing behind the guard
bit is lost. A shift by the whole width must not round up. -/
def ShiftGuard (mode : RoundingMode) (sign : Bool) (n shift : ℕ) : Prop :=
  let away := mode.direction.away sign = true
  shift = 0 ∨
  (0 < shift ∧ shift ≤ 127 ∧ ¬ (away ∧ 2 ^ shift ∣ n) ∧
    ¬ (mode = .roundToNearest ∧ LosesRest n shift)) ∨
  (128 ≤ shift ∧ (away → n = 0) ∧ (mode = .roundToNearest → shift = 128 → n ≤ 2 ^ 127))

section

variable (mode : RoundingMode) (sign : Bool) {n shift : ℕ} {i : Uint128}

theorem shiftsRight_iff_toNat : ShiftsRight mode i shift sign ↔
    (u128ShiftRightRound mode i shift sign).toNat =
      mode.direction.quotient sign i.toNat (2 ^ shift) := by
  rw [ShiftsRight, Lib.Rounding.toInt_quotient _ (Nat.two_pow_pos shift)]
  cases sign <;> simp

/-- The rest is taken from 64 bits, which all matter up to 65 places. -/
theorem adds_iff_carries (hshift : 0 < shift) :
    RoundingMode.roundToNearest.adds sign n shift ↔
      Direction.nearestEven.carries sign n (2 ^ shift) ∧ ¬ LosesRest n shift := by
  obtain ⟨k, rfl⟩ : ∃ k, shift = k + 1 := ⟨shift - 1, by omega⟩
  have hdvd : 2 ^ min k 64 ∣ 2 ^ k := pow_dvd_pow 2 (Nat.min_le_left k 64)
  have hrest : n % 2 ^ k = 0 → n % 2 ^ min k 64 = 0 := fun h ↦
    Nat.mod_eq_zero_of_dvd (hdvd.trans (Nat.dvd_of_mod_eq_zero h))
  rw [RoundingMode.adds, RoundingMode.carries_nearest_iff, LosesRest, Nat.add_sub_cancel,
    ← Nat.not_odd_iff_even]
  rcases Nat.le_total k 64 with hk | hk
  · have hdvd' : 2 ^ k ∣ 2 ^ 64 := pow_dvd_pow 2 hk
    have hword : n % 2 ^ 64 = 0 → n % 2 ^ k = 0 := fun h ↦
      Nat.mod_eq_zero_of_dvd (hdvd'.trans (Nat.dvd_of_mod_eq_zero h))
    rw [Nat.min_eq_left hk]
    tauto
  · rw [Nat.min_eq_right hk] at hrest ⊢
    tauto

/-- Up to 127 places. -/
theorem shifted_eq_quotient_iff (hshift : 0 < shift) :
    mode.shifted sign n shift = mode.direction.quotient sign n (2 ^ shift) ↔
      ¬ (mode.direction.away sign = true ∧ 2 ^ shift ∣ n) ∧
        ¬ (mode = .roundToNearest ∧ LosesRest n shift) := by
  cases mode with
  | roundToNearest =>
    have hcarries : LosesRest n shift → Direction.nearestEven.carries sign n (2 ^ shift) := by
      obtain ⟨k, rfl⟩ : ∃ k, shift = k + 1 := ⟨shift - 1, by omega⟩
      rintro ⟨hguard, -, hrest, -⟩
      exact (RoundingMode.carries_nearest_iff sign n k).mpr ⟨hguard, .inl hrest⟩
    rw [RoundingMode.shifted_eq_iff_adds, adds_iff_carries sign hshift, RoundingMode.direction, and_iff_left_iff_imp]
    simp only [Direction.away, Bool.false_eq_true, false_and, not_false_eq_true, true_and]
    exact ⟨fun h hlost ↦ h (hcarries hlost) hlost, fun h _ ↦ h⟩
  | _ =>
    rw [RoundingMode.shifted_eq_iff_of_directed _ sign n (by decide), iff_self_and]
    rintro - ⟨hmode, -⟩
    cases hmode

theorem quotient_eq_zero_iff (hn : n < 2 ^ 128) (hshift : 128 ≤ shift) :
    mode.direction.quotient sign n (2 ^ shift) = 0 ↔
      (mode.direction.away sign = true → n = 0) ∧
        (mode = .roundToNearest → shift = 128 → n ≤ 2 ^ 127) := by
  have hpow : 2 ^ 128 ≤ 2 ^ shift := Nat.pow_le_pow_right two_pos hshift
  have hdiv : n / 2 ^ shift = 0 := Nat.div_eq_of_lt (by omega)
  have hmod : n % 2 ^ shift = n := Nat.mod_eq_of_lt (by omega)
  have hnearest : 2 ^ shift < 2 * n ↔ shift = 128 ∧ 2 ^ 127 < n := by
    rcases hshift.eq_or_lt with rfl | hlarge
    · omega
    · have hdouble : 2 ^ 129 ≤ 2 ^ shift := Nat.pow_le_pow_right two_pos hlarge
      omega
  rw [Direction.quotient, hdiv, Nat.zero_add, ite_eq_right_iff]
  cases mode with
  | roundToNearest =>
    simp only [Direction.carries, RoundingMode.direction, Direction.away, hmod, hdiv, hnearest,
      Nat.not_odd_zero, and_false, or_false, Bool.false_eq_true, false_implies, true_and,
      one_ne_zero, imp_false, not_and, Nat.not_lt, true_implies]
  | _ =>
    simp only [Direction.carries, RoundingMode.direction, Direction.away, hmod]
    cases sign <;> simp

/-- The shift rounds as its mode says if and only if the guard holds. -/
theorem u128ShiftRightRound_iff (mode : RoundingMode) (i : Uint128) (shift : ℕ) (sign : Bool) :
    ShiftsRight mode i shift sign ↔ ShiftGuard mode sign i.toNat shift := by
  rw [shiftsRight_iff_toNat, ShiftGuard]
  rcases Nat.eq_zero_or_pos shift with rfl | hpos
  · rw [u128ShiftRightRound, if_pos rfl, Direction.quotient_of_dvd _ _ (Nat.two_pow_pos 0)
      (one_dvd _), pow_zero, Nat.div_one]
    simp
  · by_cases hle : shift ≤ 127
    · rw [toNat_u128ShiftRightRound mode i sign hpos hle, shifted_eq_quotient_iff mode sign hpos]
      simp only [hpos, hle, hpos.ne', show ¬ 128 ≤ shift by omega, true_and, false_and, false_or,
        or_false]
    · rw [u128ShiftRightRound, if_neg hpos.ne', if_pos (by omega)]
      change 0 = _ ↔ _
      rw [eq_comm, quotient_eq_zero_iff mode sign i.isLt (by omega)]
      simp only [hle, hpos.ne', show 128 ≤ shift by omega, true_and, false_and, and_false, false_or]

end

/-- Three of six halves, rounded up to four. -/
theorem not_shiftsRight_six : ¬ ∀ (mode : RoundingMode) (i : Uint128) (shift : ℕ) (sign : Bool),
    ShiftsRight mode i shift sign := by
  intro h
  have hsix := (shiftsRight_iff_toNat .roundUp false).mp (h .roundUp 6 1 false)
  exact absurd hsix (by decide)

end Isl.Emu
