import Mathlib.Algebra.Order.Floor.Ring
import Mathlib.Data.Int.Log
import Mathlib.Tactic.FieldSimp
import Mathlib.Tactic.Linarith
import Mathlib.Tactic.Ring

/-!
Rounding to integers, and to the numbers of a floating point format: those of a
precision, with a least place that all numbers share and a limit that none reaches.
-/

namespace Isl.Lib.Rounding

variable {K : Type*} [Field K]

/-! Magnitudes with a sign. -/

def signed {R : Type*} [Neg R] (negative : Bool) (x : R) : R := if negative then -x else x

@[simp]
theorem signed_false {R : Type*} [Neg R] (x : R) : signed false x = x := rfl

@[simp]
theorem signed_true {R : Type*} [Neg R] (x : R) : signed true x = -x := rfl

@[simp]
theorem signed_zero (negative : Bool) : signed negative (0 : K) = 0 := by
  cases negative <;> simp

theorem signed_mul (negative : Bool) (x y : K) : signed negative (x * y) = signed negative x * y := by
  cases negative <;> simp

theorem signed_inj (negative : Bool) {x y : K} : signed negative x = signed negative y ↔ x = y := by
  cases negative <;> simp

theorem signed_intCast (negative : Bool) (n : ℤ) :
    ((signed negative n : ℤ) : K) = signed negative (n : K) := by
  cases negative <;> simp

variable [LinearOrder K] [IsStrictOrderedRing K]

theorem natCast_mul_zpow_inj {n m : ℕ} (q : ℤ) : (n : K) * 2 ^ q = m * 2 ^ q ↔ n = m := by
  rw [mul_left_inj' (zpow_pos two_pos q).ne', Nat.cast_inj]

theorem abs_signed (negative : Bool) {x : K} (hx : 0 ≤ x) : |signed negative x| = x := by
  cases negative <;> simp [hx]

theorem signed_neg_iff (negative : Bool) {x : K} (hx : 0 < x) :
    decide (signed negative x < 0) = negative := by
  cases negative <;> simp [hx, hx.not_gt]

variable [FloorRing K]

/-! Rounding to integers. -/

/-- The nearest integer, and the even one of two. -/
def roundEven (x : K) : ℤ :=
  if Int.fract x < 1 / 2 ∨ (Int.fract x = 1 / 2 ∧ Even ⌊x⌋) then ⌊x⌋ else ⌊x⌋ + 1

theorem roundEven_intCast (n : ℤ) : roundEven (n : K) = n := by
  simp [roundEven]

theorem roundEven_neg (x : K) : roundEven (-x) = -roundEven x := by
  by_cases hx : Int.fract x = 0
  · obtain ⟨n, rfl⟩ : ∃ n : ℤ, (n : K) = x := Int.fract_eq_zero_iff.mp hx
    rw [← Int.cast_neg, roundEven_intCast, roundEven_intCast]
  have hpos : 0 < Int.fract x := lt_of_le_of_ne (Int.fract_nonneg x) (Ne.symm hx)
  have hfloor : ⌊-x⌋ = -⌊x⌋ - 1 := by
    have hone := Int.fract_lt_one x
    have hself := Int.self_sub_floor x
    rw [Int.floor_eq_iff]
    push_cast
    constructor <;> linarith
  have hfract : Int.fract (-x) = 1 - Int.fract x := Int.fract_neg hx
  have heven : Even (-⌊x⌋ - 1) ↔ ¬ Even ⌊x⌋ := by
    rw [Int.even_sub_one, even_neg]
  simp only [roundEven, hfloor, hfract, heven]
  rcases lt_trichotomy (Int.fract x) (1 / 2) with h | h | h
  · rw [if_neg, if_pos (.inl h)]
    · ring
    · rintro (h' | ⟨h', -⟩) <;> linarith
  · have h' : 1 - Int.fract x = 1 / 2 := by linarith
    by_cases hodd : Even ⌊x⌋
    · rw [if_neg (by simp [h', hodd]), if_pos (.inr ⟨h, hodd⟩)]
      ring
    · rw [if_pos (.inr ⟨h', hodd⟩), if_neg (by simp [h, hodd])]
      ring
  · rw [if_pos (.inl (by linarith)), if_neg]
    · ring
    · rintro (h' | ⟨h', -⟩) <;> linarith

inductive Direction
  | nearestEven
  | down
  | up
  | towardZero
deriving DecidableEq

namespace Direction

variable (d : Direction)

def toInt (x : K) : ℤ :=
  match d with
  | nearestEven => roundEven x
  | down => ⌊x⌋
  | up => ⌈x⌉
  | towardZero => if x < 0 then ⌈x⌉ else ⌊x⌋

@[simp]
theorem toInt_intCast (n : ℤ) : d.toInt (n : K) = n := by
  cases d <;> simp [toInt, roundEven_intCast]

/-- The direction seen from the other side of zero. -/
def opposite : Direction → Direction
  | nearestEven => nearestEven
  | down => up
  | up => down
  | towardZero => towardZero

theorem toInt_neg (x : K) : d.toInt (-x) = -d.opposite.toInt x := by
  cases d with
  | nearestEven => exact roundEven_neg x
  | down => exact Int.floor_neg
  | up => exact Int.ceil_neg
  | towardZero =>
    rcases lt_trichotomy x 0 with h | rfl | h
    · simp [toInt, opposite, h, h.le, Int.floor_neg]
    · simp [toInt, opposite]
    · simp [toInt, opposite, h, h.le, Int.ceil_neg]

theorem floor_le_toInt (x : K) : ⌊x⌋ ≤ d.toInt x := by
  have h := Int.floor_le_ceil x
  cases d <;> simp only [toInt, roundEven] <;> grind

/-- Whether magnitudes of this sign are rounded away from zero. -/
def away (negative : Bool) : Bool :=
  match d with
  | down => negative
  | up => !negative
  | _ => false

/-- Whether the quotient of the magnitudes `n` and `m` is rounded up. -/
def carries (negative : Bool) (n m : ℕ) : Prop :=
  match d with
  | nearestEven => m < 2 * (n % m) ∨ (m = 2 * (n % m) ∧ Odd (n / m))
  | _ => d.away negative = true ∧ n % m ≠ 0

instance (negative : Bool) (n m : ℕ) : Decidable (d.carries negative n m) := by
  unfold carries
  cases d <;> infer_instance

def quotient (negative : Bool) (n m : ℕ) : ℕ := n / m + if d.carries negative n m then 1 else 0

theorem quotient_true (n m : ℕ) : d.quotient true n m = d.opposite.quotient false n m := by
  cases d with
  | nearestEven => rfl
  | _ => simp [quotient, carries, away, opposite]

theorem not_carries (negative : Bool) {n m : ℕ} (hm : 0 < m) (hn : m ∣ n) :
    ¬ d.carries negative n m := by
  cases d <;> simp [carries, Nat.mod_eq_zero_of_dvd hn, hm.ne']

theorem quotient_of_dvd (negative : Bool) {n m : ℕ} (hm : 0 < m) (hn : m ∣ n) :
    d.quotient negative n m = n / m := by
  rw [quotient, if_neg (d.not_carries negative hm hn), Nat.add_zero]

theorem quotient_le (negative : Bool) (n m : ℕ) : d.quotient negative n m ≤ n / m + 1 := by
  rw [quotient]
  split <;> omega

theorem quotient_cases (negative : Bool) (n m : ℕ) :
    (d.quotient negative n m = n / m ∧ ¬ d.carries negative n m) ∨
      (d.quotient negative n m = n / m + 1 ∧ d.carries negative n m) := by
  rw [quotient]
  split <;> simp [*]

/-- An even number of times the divisor is no matter for the rounding. -/
theorem quotient_mul_add (negative : Bool) {c : ℕ} (hc : Even c) (r : ℕ) {m : ℕ} (hm : 0 < m) :
    d.quotient negative (m * c + r) m = c + d.quotient negative r m := by
  have hdiv : (m * c + r) / m = c + r / m := Nat.mul_add_div hm c r
  have hmod : (m * c + r) % m = r % m := Nat.mul_add_mod m c r
  have hodd : Odd (c + r / m) ↔ Odd (r / m) := by
    rw [Nat.odd_add']
    exact iff_true_right hc
  have hcarries : d.carries negative (m * c + r) m ↔ d.carries negative r m := by
    cases d <;> simp only [carries, hdiv, hmod, hodd]
  simp only [quotient, hdiv, hcarries, Nat.add_assoc]

/-- What the nearest number is above. -/
theorem lt_nearest_iff (negative : Bool) (c n : ℕ) {m : ℕ} (hm : 0 < m) :
    c < nearestEven.quotient negative n m ↔
      (2 * c + 1) * m < 2 * n ∨ (2 * c + 1) * m = 2 * n ∧ Odd c := by
  have hdiv := Nat.div_add_mod n m
  have hlt := Nat.mod_lt n hm
  have hcases := nearestEven.quotient_cases negative n m
  simp only [carries] at hcases
  generalize nearestEven.quotient negative n m = t at *
  generalize n / m = q at *
  generalize n % m = r at *
  rcases lt_trichotomy c q with h | rfl | h
  · have hle : m * (c + 1) ≤ m * q := Nat.mul_le_mul_left m h
    have hlarge : (2 * c + 1) * m < 2 * n := by
      calc (2 * c + 1) * m < 2 * (m * (c + 1)) := by nlinarith
        _ ≤ 2 * n := by omega
    simp only [hlarge, true_or, iff_true]
    omega
  · have hsum : (2 * c + 1) * m = 2 * (m * c) + m := by ring
    rw [hsum]
    by_cases hodd : Odd c <;> simp only [hodd, and_true, and_false, or_false] at hcases ⊢ <;> omega
  · have hle : m * (q + 1) ≤ m * c := Nat.mul_le_mul_left m h
    have hsmall : 2 * n < (2 * c + 1) * m := by
      calc 2 * n < 2 * (m * (q + 1)) := by
            rw [Nat.mul_succ]
            omega
        _ ≤ 2 * (m * c) := by omega
        _ ≤ (2 * c + 1) * m := by nlinarith
    have hnot : ¬ ((2 * c + 1) * m < 2 * n ∨ (2 * c + 1) * m = 2 * n ∧ Odd c) := by
      rintro (h' | ⟨h', -⟩) <;> omega
    simp only [hnot, iff_false]
    omega

end Direction

section Quotient

variable (n : ℕ) {m : ℕ} (hm : 0 < m)

omit [LinearOrder K] [IsStrictOrderedRing K] [FloorRing K] in
theorem cast_eq_div_add_mod : (n : K) = m * (n / m : ℕ) + (n % m : ℕ) := by
  rw [← Nat.cast_mul, ← Nat.cast_add, Nat.div_add_mod]

theorem floor_quotient : ⌊(n : K) / m⌋ = (n / m : ℕ) := by
  rw [Int.floor_div_natCast, Int.floor_natCast, Int.natCast_div]

include hm

theorem ceil_quotient : ⌈(n : K) / m⌉ = (n / m + if n % m ≠ 0 then 1 else 0 : ℕ) := by
  have hm' : (0 : K) < m := Nat.cast_pos.mpr hm
  have hdiv := cast_eq_div_add_mod (K := K) n (m := m)
  rw [Int.ceil_eq_iff, lt_div_iff₀ hm', div_le_iff₀ hm']
  generalize n / m = q at hdiv ⊢
  by_cases h : n % m = 0
  · rw [h, Nat.cast_zero] at hdiv
    rw [if_neg (not_not_intro h)]
    push_cast
    constructor <;> linarith
  · have hpos : (0 : K) < (n % m : ℕ) := Nat.cast_pos.mpr (Nat.pos_of_ne_zero h)
    have hlt : ((n % m : ℕ) : K) < m := Nat.cast_lt.mpr (Nat.mod_lt n hm)
    rw [if_pos h]
    push_cast
    constructor <;> linarith

theorem roundEven_quotient :
    roundEven ((n : K) / m) = (Direction.nearestEven.quotient false n m : ℕ) := by
  have hm' : (0 : K) < m := Nat.cast_pos.mpr hm
  have hlt : ((n % m : ℕ) : K) / m < 1 / 2 ↔ 2 * (n % m) < m := by
    rw [div_lt_div_iff₀ hm' two_pos, one_mul, mul_comm]
    exact_mod_cast Iff.rfl
  have heq : ((n % m : ℕ) : K) / m = 1 / 2 ↔ 2 * (n % m) = m := by
    rw [div_eq_div_iff hm'.ne' two_ne_zero, one_mul, mul_comm]
    exact_mod_cast Iff.rfl
  have heven : Even (((n / m : ℕ) : ℤ)) ↔ ¬ Odd (n / m) := by
    rw [Int.even_coe_nat, Nat.not_odd_iff_even]
  have hcarries : Direction.nearestEven.carries false n m ↔
      ¬ (2 * (n % m) < m ∨ 2 * (n % m) = m ∧ ¬ Odd (n / m)) := by
    simp only [Direction.carries]
    grind
  simp only [roundEven, Int.fract_div_natCast_eq_div_natCast_mod, floor_quotient, hlt, heq, heven,
    Direction.quotient, hcarries]
  split <;> simp

/-- A quotient of magnitudes is rounded by its remainder. -/
theorem toInt_quotient (d : Direction) (negative : Bool) :
    d.toInt (signed negative ((n : K) / m)) = signed negative (d.quotient negative n m : ℤ) := by
  have hpositive (d : Direction) : d.toInt ((n : K) / m) = (d.quotient false n m : ℤ) := by
    have hquotient : 0 ≤ (n : K) / m := by positivity
    cases d with
    | nearestEven => exact roundEven_quotient n hm
    | down => simp [Direction.toInt, floor_quotient, Direction.quotient, Direction.carries,
        Direction.away]
    | up => simp [Direction.toInt, ceil_quotient n hm, Direction.quotient, Direction.carries,
        Direction.away]
    | towardZero => simp [Direction.toInt, floor_quotient, Direction.quotient, Direction.carries,
        Direction.away, not_lt.mpr hquotient]
  cases negative with
  | false => exact hpositive d
  | true => rw [signed_true, Direction.toInt_neg, hpositive, Direction.quotient_true, signed_true]

end Quotient

/-! Rounding to the numbers of a format. -/

/-- Numbers of `precision` bits, all multiples of `2 ^ least` and below `2 ^ limit`. -/
structure Format where
  precision : ℕ
  least : ℤ
  limit : ℤ

inductive Rounded (K : Type*)
  | finite (x : K)
  | infinite (negative : Bool)

namespace Format

variable (F : Format) (d : Direction)

/-- The place of the last bit. -/
def place (x : K) : ℤ := max (Int.log 2 |x| + 1 - F.precision) F.least

/-- The number rounded as if there were no limit. -/
def unlimited (x : K) : K := d.toInt (x / 2 ^ F.place x) * 2 ^ F.place x

def largest : K := (2 ^ F.precision - 1) * 2 ^ (F.limit - F.precision)

/-- What the limit does to a magnitude that reaches it when it is rounded. -/
def overflow (negative : Bool) : Rounded K :=
  if d = .nearestEven ∨ d.away negative = true then .infinite negative
  else .finite (signed negative F.largest)

def round (x : K) : Rounded K :=
  if |F.unlimited d x| < 2 ^ F.limit then .finite (F.unlimited d x)
  else F.overflow d (decide (x < 0))

variable {F}

theorem unlimited_zero : F.unlimited d (0 : K) = 0 := by
  have h : d.toInt (0 : K) = 0 := by simpa using d.toInt_intCast (K := K) 0
  simp [unlimited, h]

section Place

variable (negative : Bool) {x : K}

theorem place_signed (hx : 0 ≤ x) :
    F.place (signed negative x) = max (Int.log 2 x + 1 - F.precision) F.least := by
  rw [place, abs_signed negative hx]

theorem log_lt {q : ℤ} (hx : 0 < x) (hhigh : x < 2 ^ q) : Int.log 2 x < q :=
  (Int.lt_zpow_iff_log_lt one_lt_two hx).mp (by simpa using hhigh)

theorem le_log {q : ℤ} (hx : 0 < x) (hlow : 2 ^ q ≤ x) : q ≤ Int.log 2 x :=
  (Int.zpow_le_iff_le_log one_lt_two hx).mp (by simpa using hlow)

theorem place_of_bounds {q : ℤ} (hlow : 2 ^ (q + F.precision - 1) ≤ x)
    (hhigh : x < 2 ^ (q + F.precision)) (hq : F.least ≤ q) : F.place (signed negative x) = q := by
  have hpos : 0 < x := lt_of_lt_of_le (zpow_pos two_pos _) hlow
  have h1 := le_log hpos hlow
  have h2 := log_lt hpos hhigh
  rw [place_signed negative hpos.le]
  omega

theorem place_le {q : ℤ} (hpos : 0 < x) (hhigh : x < 2 ^ (q + F.precision)) (hq : F.least ≤ q) :
    F.place (signed negative x) ≤ q := by
  have h2 := log_lt hpos hhigh
  rw [place_signed negative hpos.le]
  omega

omit [IsStrictOrderedRing K] in
theorem least_le_place (x : K) : F.least ≤ F.place x := le_max_right _ _

end Place

section Unlimited

variable (negative : Bool) (n : ℕ) {m : ℕ} (hm : 0 < m)

include hm

theorem unlimited_of_place {q : ℤ} (hq : F.place (signed negative ((n : K) / m * 2 ^ q)) = q) :
    F.unlimited d (signed negative ((n : K) / m * 2 ^ q))
      = signed negative ((d.quotient negative n m : K) * 2 ^ q) := by
  have hne : (2 : K) ^ q ≠ 0 := (zpow_pos two_pos q).ne'
  rw [unlimited, hq, signed_mul, mul_div_cancel_right₀ _ hne, toInt_quotient n hm, signed_intCast,
    signed_mul, Int.cast_natCast]

theorem quotient_mul_lt (hn : n < 2 ^ F.precision * m) (q : ℤ) :
    (n : K) / m * 2 ^ q < 2 ^ (q + F.precision) := by
  have hn' : (n : K) / m < 2 ^ F.precision := by
    rw [div_lt_iff₀ (Nat.cast_pos.mpr hm)]
    exact_mod_cast hn
  rw [zpow_add₀ two_ne_zero, mul_comm, zpow_natCast]
  exact mul_lt_mul_of_pos_left hn' (zpow_pos two_pos q)

/-- Below the numbers of full precision the last place is the least one. -/
theorem unlimited_of_lt (hn : n < 2 ^ F.precision * m) :
    F.unlimited d (signed negative ((n : K) / m * 2 ^ F.least))
      = signed negative ((d.quotient negative n m : K) * 2 ^ F.least) := by
  rcases Nat.eq_zero_or_pos n with rfl | hpos
  · simp [d.quotient_of_dvd negative hm (dvd_zero m), unlimited_zero]
  have hm' : (0 : K) < m := Nat.cast_pos.mpr hm
  have hn' : (0 : K) < n := Nat.cast_pos.mpr hpos
  have hx : (0 : K) < n / m * 2 ^ F.least := mul_pos (div_pos hn' hm') (zpow_pos two_pos _)
  apply unlimited_of_place d negative n hm
  exact le_antisymm (place_le negative hx (quotient_mul_lt n hm hn _) le_rfl) (least_le_place _)

/-- A number of full precision is rounded at the place of its last bit. -/
theorem unlimited_of_ge {q : ℤ} (hq : F.least ≤ q) (hlow : 2 ^ F.precision * m ≤ 2 * n)
    (hn : n < 2 ^ F.precision * m) :
    F.unlimited d (signed negative ((n : K) / m * 2 ^ q))
      = signed negative ((d.quotient negative n m : K) * 2 ^ q) := by
  have hm' : (0 : K) < m := Nat.cast_pos.mpr hm
  have hlow' : (2 : K) ^ F.precision * 2⁻¹ ≤ n / m := by
    rw [le_div_iff₀ hm', mul_right_comm, mul_inv_le_iff₀ two_pos, mul_comm (n : K)]
    exact_mod_cast hlow
  apply unlimited_of_place d negative n hm
  apply place_of_bounds negative _ (quotient_mul_lt n hm hn _) hq
  rw [zpow_sub_one₀ two_ne_zero, zpow_add₀ two_ne_zero, zpow_natCast, mul_assoc, mul_comm]
  exact mul_le_mul_of_nonneg_right hlow' (zpow_pos two_pos q).le

end Unlimited

/-- A number of the format is left as it is. -/
theorem unlimited_exact (negative : Bool) {n : ℕ} (hn : n < 2 ^ F.precision) {q : ℤ}
    (hq : F.least ≤ q) :
    F.unlimited d (signed negative ((n : K) * 2 ^ q)) = signed negative ((n : K) * 2 ^ q) := by
  rcases Nat.eq_zero_or_pos n with rfl | hpos
  · simp [unlimited_zero]
  have hx : (0 : K) < n * 2 ^ q := mul_pos (Nat.cast_pos.mpr hpos) (zpow_pos two_pos q)
  have hle : F.place (signed negative ((n : K) * 2 ^ q)) ≤ q := by
    apply place_le negative hx _ hq
    simpa using quotient_mul_lt (K := K) n one_pos (by simpa using hn) q
  generalize hp : F.place (signed negative ((n : K) * 2 ^ q)) = p at hle
  obtain ⟨k, rfl⟩ : ∃ k : ℕ, q = p + k := ⟨(q - p).toNat, by omega⟩
  have hne : (2 : K) ^ p ≠ 0 := (zpow_pos two_pos p).ne'
  have hint : signed negative ((n : K) * 2 ^ (p + (k : ℤ))) / 2 ^ p
      = ((signed negative ((n : ℤ) * 2 ^ k) : ℤ) : K) := by
    rw [zpow_add₀ two_ne_zero, mul_left_comm, mul_comm, signed_mul, mul_div_cancel_right₀ _ hne,
      signed_intCast]
    push_cast
    rw [zpow_natCast]
  rw [unlimited, hp, hint, Direction.toInt_intCast, ← hint, div_mul_cancel₀ _ hne]

/-- Rounding does not go below a power of two. -/
theorem le_abs_unlimited (hF : 0 < F.precision) (negative : Bool) {x : K} {a : ℤ} (hx : 2 ^ a ≤ x)
    (ha : F.least ≤ a) : 2 ^ a ≤ |F.unlimited d (signed negative x)| := by
  have hpos : 0 < x := lt_of_lt_of_le (zpow_pos two_pos a) hx
  have hlog : (2 : K) ^ Int.log 2 x ≤ x := by
    simpa using Int.zpow_log_le_self (R := K) one_lt_two hpos
  have hle := le_log hpos hx
  have hplace := place_signed (F := F) negative hpos.le
  generalize hp : F.place (signed negative x) = p at hplace
  have hne : (2 : K) ^ p ≠ 0 := (zpow_pos two_pos p).ne'
  obtain ⟨k, hk⟩ : ∃ k : ℕ, max a p = p + k := ⟨(a - p).toNat, by omega⟩
  have hmax : (2 : K) ^ (p + (k : ℤ)) ≤ x := by
    refine le_trans (zpow_le_zpow_right₀ one_le_two ?_) hlog
    omega
  have hfloor (d : Direction) : (2 : ℤ) ^ k ≤ d.toInt (x / 2 ^ p) := by
    refine le_trans (Int.le_floor.mpr ?_) (d.floor_le_toInt _)
    rw [le_div_iff₀ (zpow_pos two_pos p)]
    rw [zpow_add₀ two_ne_zero, zpow_natCast, mul_comm] at hmax
    exact_mod_cast hmax
  have htoInt : (2 : ℤ) ^ k ≤ |d.toInt (signed negative x / 2 ^ p)| := by
    cases negative with
    | false => exact le_trans (hfloor d) (le_abs_self _)
    | true =>
      rw [signed_true, neg_div, Direction.toInt_neg, abs_neg]
      exact le_trans (hfloor _) (le_abs_self _)
  have hcast : (2 : K) ^ k ≤ |(d.toInt (signed negative x / 2 ^ p) : K)| := by
    exact_mod_cast htoInt
  calc (2 : K) ^ a ≤ 2 ^ (p + (k : ℤ)) := zpow_le_zpow_right₀ one_le_two (by omega)
    _ = 2 ^ k * 2 ^ p := by rw [zpow_add₀ two_ne_zero, zpow_natCast, mul_comm]
    _ ≤ |(d.toInt (signed negative x / 2 ^ p) : K)| * 2 ^ p :=
      mul_le_mul_of_nonneg_right hcast (zpow_pos two_pos p).le
    _ = |F.unlimited d (signed negative x)| := by
      rw [unlimited, hp, abs_mul, abs_of_pos (zpow_pos (two_pos : (0 : K) < 2) p)]

theorem natCast_mul_zpow_lt {n k : ℕ} (hn : n < 2 ^ k) {q l : ℤ} (hl : k + q ≤ l) :
    (n : K) * 2 ^ q < 2 ^ l := by
  have hlt : (n : K) * 2 ^ q < 2 ^ (k + q) := by
    rw [zpow_add₀ two_ne_zero, zpow_natCast]
    exact mul_lt_mul_of_pos_right (by exact_mod_cast hn) (zpow_pos two_pos q)
  exact lt_of_lt_of_le hlt (zpow_le_zpow_right₀ one_le_two hl)

/-- A number that is below the limit when it is rounded. -/
theorem round_of_lt {x : K} {negative : Bool} {n : ℕ} {q : ℤ}
    (hx : F.unlimited d x = signed negative ((n : K) * 2 ^ q)) (hlt : (n : K) * 2 ^ q < 2 ^ F.limit) :
    F.round d x = .finite (signed negative ((n : K) * 2 ^ q)) := by
  have hpos : (0 : K) ≤ n * 2 ^ q := mul_nonneg (Nat.cast_nonneg n) (zpow_pos two_pos q).le
  rw [round, if_pos (by rwa [hx, abs_signed negative hpos]), hx]

omit [LinearOrder K] [IsStrictOrderedRing K] [FloorRing K] in
theorem overflow_nearest (negative : Bool) :
    F.overflow (K := K) .nearestEven negative = .infinite negative := if_pos (.inl rfl)

theorem round_of_ge {x : K} {negative : Bool} (hx : 0 < x)
    (hge : 2 ^ F.limit ≤ |F.unlimited d (signed negative x)|) :
    F.round d (signed negative x) = F.overflow d negative := by
  rw [round, if_neg hge.not_gt, signed_neg_iff negative hx]

end Format

end Isl.Lib.Rounding
