import Mathlib.Data.Int.Notation
import Mathlib.Tactic.Linarith

/-!
Truncated division: what its quotient and its remainder are, and what a division by a
negative number gives whose divisor is read without the sign.
-/

namespace Isl.Lib.Truncated

variable {d v q r : ℤ}

/-- The quotient and the remainder of a division. -/
structure Divides (d v q r : ℤ) : Prop where
  whole : d = q * v + r
  small : |r| < |v|
  sign : r = 0 ∨ r.sign = d.sign

theorem divides_iff (hv : v ≠ 0) : Divides d v q r ↔ q = d.tdiv v ∧ r = d.tmod v := by
  constructor
  · rintro ⟨hwhole, hsmall, hsign⟩
    rw [Int.abs_eq_natAbs, Int.abs_eq_natAbs] at hsmall
    have hsum : r + v * q = d := by rw [hwhole, Int.mul_comm, Int.add_comm]
    rcases Int.le_total 0 d with hd | hd
    · have hr : 0 ≤ r := by
        rcases hsign with rfl | hsign
        · exact Int.le_refl 0
        · exact Int.sign_nonneg_iff.mp (hsign ▸ Int.sign_nonneg_iff.mpr hd)
      obtain ⟨hq, hr'⟩ := (Int.tdiv_tmod_unique hd hv).mpr ⟨hsum, hr, by omega⟩
      exact ⟨hq.symm, hr'.symm⟩
    · have hr : r ≤ 0 := by
        rcases hsign with rfl | hsign
        · exact Int.le_refl 0
        · exact Int.sign_nonpos_iff.mp (hsign ▸ Int.sign_nonpos_iff.mpr hd)
      obtain ⟨hq, hr'⟩ := (Int.tdiv_tmod_unique' hd hv).mpr ⟨hsum, by omega, hr⟩
      exact ⟨hq.symm, hr'.symm⟩
  · rintro ⟨rfl, rfl⟩
    refine ⟨?_, ?_, ?_⟩
    · rw [Int.add_comm, Int.tmod_add_tdiv_mul]
    · rw [Int.abs_eq_natAbs, Int.abs_eq_natAbs, Int.natAbs_tmod]
      exact Int.ofNat_lt.mpr (Nat.mod_lt _ (Int.natAbs_pos.mpr hv))
    · rw [Int.sign_tmod]
      by_cases hdvd : v ∣ d
      · exact .inl (Int.tmod_eq_zero_of_dvd hdvd)
      · exact .inr (if_neg hdvd)

/-! A negative divisor that is read without its sign, as `v + 2 * h` for `-h ≤ v`. -/

section

variable {h : ℤ}

/-- The sizes of the two quotients. -/
theorem sizes (hneg : v < 0) (hle : -h ≤ v) : ∃ a b : ℕ, a = d.natAbs / v.natAbs ∧
    b = d.natAbs / (v + 2 * h).natAbs ∧ b ≤ a ∧
    (0 ≤ d → d.tdiv v = -a ∧ d.tdiv (v + 2 * h) = b) ∧
    (d < 0 → d.tdiv v = a ∧ d.tdiv (v + 2 * h) = -b) := by
  obtain ⟨w, rfl⟩ : ∃ w : ℕ, v = -w := ⟨v.natAbs, by omega⟩
  obtain ⟨u, hu⟩ : ∃ u : ℕ, -(w : ℤ) + 2 * h = u := ⟨(-(w : ℤ) + 2 * h).natAbs, by omega⟩
  rw [hu]
  refine ⟨d.natAbs / w, d.natAbs / u, by simp, by simp, ?_, fun hd ↦ ?_, fun hd ↦ ?_⟩
  · exact Nat.div_le_div_left (by omega) (by omega)
  · obtain ⟨e, rfl⟩ := Int.eq_ofNat_of_zero_le hd
    simp
  · obtain ⟨e, rfl⟩ : ∃ e : ℕ, d = -e := ⟨d.natAbs, by omega⟩
    simp

/-- The two quotients agree modulo `2 * h` only where both are zero, or where they are as
large as can be. -/
theorem quotient_iff (hneg : v < 0) (hle : -h ≤ v) (hlo : -h ≤ d.tdiv v) (hhi : d.tdiv v < h) :
    2 * h ∣ d.tdiv (v + 2 * h) - d.tdiv v ↔ |d| < |v| ∨ v = -h ∧ d.tdiv v = -h := by
  obtain ⟨a, b, ha, hb, hba, hpos, hneg'⟩ := sizes (d := d) hneg hle
  have hzero : |d| < |v| ↔ a = 0 := by
    rw [ha, Nat.div_eq_zero_iff_lt (by omega), Int.abs_eq_natAbs, Int.abs_eq_natAbs, Int.ofNat_lt]
  rw [hzero]
  rcases Int.lt_or_le d 0 with hd | hd
  · obtain ⟨hq, hq'⟩ := hneg' hd
    rw [hq, hq'] at *
    constructor
    · intro hdvd
      refine .inl (Nat.eq_zero_of_not_pos fun hpos ↦ ?_)
      have hbound := Int.le_of_dvd (by omega) ((Int.dvd_neg).mpr hdvd)
      omega
    · rintro (rfl | ⟨-, heq⟩)
      · obtain rfl : b = 0 := by omega
        exact ⟨0, by simp⟩
      · omega
  · obtain ⟨hq, hq'⟩ := hpos hd
    rw [hq, hq'] at *
    constructor
    · intro hdvd
      rcases Nat.eq_zero_or_pos a with hz | hpos
      · exact .inl hz
      · have hbound := Int.le_of_dvd (by omega) hdvd
        have hsame : (a : ℤ) = h ∧ (b : ℤ) = h := by omega
        refine .inr ⟨?_, by omega⟩
        have hlow : b * (v + 2 * h).natAbs ≤ d.natAbs := hb ▸ Nat.div_mul_le_self _ _
        have hhigh : d.natAbs < a * v.natAbs + v.natAbs := by
          rw [ha]
          exact Nat.lt_div_mul_add (by omega)
        zify at hlow hhigh
        rw [abs_of_neg hneg, abs_of_nonneg hd] at hhigh
        rw [abs_of_pos (by omega), abs_of_nonneg hd] at hlow
        rw [hsame.1] at hhigh
        rw [hsame.2] at hlow
        by_contra hne
        have hlt : -v + 1 ≤ h := by omega
        nlinarith
    · rintro (rfl | ⟨rfl, heq⟩)
      · obtain rfl : b = 0 := by omega
        exact ⟨0, by simp⟩
      · have hsame : b = a := by
          rw [ha, hb]
          congr 1
          omega
        exact ⟨1, by omega⟩

/-- There the remainders are the same. -/
theorem remainder_eq (hneg : v < 0) (hle : -h ≤ v) (hcase : |d| < |v| ∨ v = -h) :
    d.tmod (v + 2 * h) = d.tmod v := by
  rcases hcase with hlt | rfl
  · have hsmall (x : ℤ) (hx : |d| < |x|) : d.tmod x = d := by
      have hne : x ≠ 0 := fun h ↦ by
        rw [h, abs_zero] at hx
        exact absurd (abs_nonneg d) (by omega)
      have hdiv : Divides d x 0 d := ⟨by rw [Int.zero_mul, Int.zero_add], hx, .inr rfl⟩
      exact ((divides_iff hne).mp hdiv).2.symm
    have hwide : |v| ≤ |v + 2 * h| := by
      rw [abs_of_neg hneg, abs_of_pos (by omega)]
      omega
    rw [hsmall v hlt, hsmall _ (hlt.trans_le hwide)]
  · have hsum : -h + 2 * h = h := by omega
    rw [hsum, Int.tmod_neg]

/-- A divisor that is also the upper half of what it divides is -1, or the quotient is too
large. -/
theorem upper_half {low : ℤ} (hv : v ≠ 0) (h0 : 0 ≤ low) (hlow : low < 2 * h)
    (hhi : (v * (2 * h) + low).tdiv v < h) : v = -1 := by
  rcases Int.lt_or_gt_of_ne hv with hneg | hpos
  · have hd : v * (2 * h) + low = -(-v * (2 * h) - low) := by
      rw [Int.neg_sub, Int.neg_mul, Int.sub_neg, Int.add_comm]
    have hnonneg : 0 ≤ -v * (2 * h) - low := by nlinarith
    rw [hd, Int.neg_tdiv, ← Int.tdiv_neg, Int.tdiv_eq_ediv_of_nonneg hnonneg] at hhi
    have hlt := Int.lt_mul_of_ediv_lt (by omega) hhi
    by_contra hne
    have hle : 2 ≤ -v := by omega
    nlinarith
  · have hnonneg : 0 ≤ v * (2 * h) + low := by nlinarith
    rw [Int.tdiv_eq_ediv_of_nonneg hnonneg] at hhi
    have hlt := Int.lt_mul_of_ediv_lt hpos hhi
    nlinarith

end

end Isl.Lib.Truncated
