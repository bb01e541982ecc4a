import Isl.Emu.Float80Mul
import Isl.Emu.Float80Order
import Isl.Lib.Loop

/-!
`f80_log2`, line by line. A call that is stopped, by an assertion or by the null pointer of
the division, ends without a number.
-/

namespace Isl.Emu

open Lib.Loop (Returns)

def f80Lte (mode : RoundingMode) (a b : Float80) : Option Bool := do
  if ← f80Lt mode a b then some true else some (f80Eq a b)

def f80Gt (mode : RoundingMode) (a b : Float80) : Option Bool := (f80Lte mode a b).map (!·)

/-- The lines a call goes back to. -/
inductive Log2Line
  | entry
  /-- `while (f80_lt(x, one))` -/
  | below
  /-- `while (f80_gt(x, two))` -/
  | above
  /-- `while (f80_gt(bit, zero))` -/
  | bits
  /-- `while (f80_lte(x, two) && f80_gt(bit, zero))` -/
  | squares
deriving DecidableEq

structure Log2State where
  line : Log2Line
  x : Float80
  zero : Float80
  one : Float80
  two : Float80
  ipart : ℤ
  res : Float80
  bit : Float80

def orStop {α : Type} (o : Option α) (f : α → Log2State ⊕ Option Float80) : Log2State ⊕ Option Float80 :=
  match o with
  | none => .inr none
  | some a => f a

def f80Log2Step (mode : RoundingMode) (s : Log2State) : Log2State ⊕ Option Float80 :=
  match s.line with
  | .entry =>
    orStop (f80FromInt 0) fun zero ↦ orStop (f80FromInt 1) fun one ↦ orStop (f80FromInt 2) fun two ↦
      if f80Isnan s.x then .inr (some f80Nan)
      else orStop (f80Lte mode s.x zero) fun small ↦
        if small then .inr (some f80Nan) else .inl { s with line := .below, zero, one, two, ipart := 0 }
  | .below =>
    orStop (f80Lt mode s.x s.one) fun less ↦
      if less then .inl { s with ipart := s.ipart - 1, x := f80Mul mode s.x s.two }
      else .inl { s with line := .above }
  | .above =>
    orStop (f80Gt mode s.x s.two) fun greater ↦
      if greater then
        orStop (f80Div mode s.x s.two) fun x ↦ .inl { s with ipart := s.ipart + 1, x }
      else orStop (f80FromInt (BitVec.ofInt 64 s.ipart)) fun res ↦
        .inl { s with line := .bits, res, bit := s.one }
  | .bits =>
    orStop (f80Gt mode s.bit s.zero) fun more ↦
      if more then .inl { s with line := .squares } else .inr (some s.res)
  | .squares =>
    orStop (f80Lte mode s.x s.two) fun small ↦
      orStop (if small then f80Gt mode s.bit s.zero else some false) fun more ↦
        if more then
          orStop (f80Div mode s.bit s.two) fun bit ↦ .inl { s with x := f80Mul mode s.x s.x, bit }
        else orStop (f80Add mode s.res s.bit) fun res ↦
          if s.res.signif == res.signif && s.res.exp == res.exp && s.res.sign == res.sign then
            .inr (some res)
          else orStop (f80Div mode s.x s.two) fun x ↦ .inl { s with line := .bits, res, x }

/-- Before the first line only `x` is set. -/
def f80Log2Start (x : Float80) : Log2State :=
  ⟨.entry, x, f80Zero, f80Zero, f80Zero, 0, f80Zero, f80Zero⟩

/-- `f80_log2(x)` ends, with a number or stopped. -/
def EndsLog2 (mode : RoundingMode) (x : Float80) (r : Option Float80) : Prop :=
  Returns (f80Log2Step mode) (f80Log2Start x) r

def f80One : Float80 := .of 0x8000000000000000 0x3fff false

def f80Two : Float80 := .of 0x8000000000000000 0x4000 false

theorem f80FromInt_zero : f80FromInt 0 = some f80Zero := by decide

theorem f80FromInt_one : f80FromInt 1 = some f80One := by decide

theorem f80FromInt_two : f80FromInt 2 = some f80Two := by decide

/-! Where a call ends, and where it does not. -/

/-- A number is returned for what is no number and for what is found not to be positive. -/
def Log2Guard (mode : RoundingMode) (x : Float80) : Prop :=
  f80Isnan x ∨ f80Iszero x ∨
  (f80IsSupported x ∧ x.sign = true ∧ Survives mode x (f80Neg f80Zero))

/-- There is no end where halving changes nothing, and below one, where doubling gives what is
no supported number. -/
def Log2Forever (mode : RoundingMode) (x : Float80) : Prop :=
  f80Isnan x = false ∧
  (f80IsSupported x = false ∨ (f80Isinf x ∧ x.sign = false) ∨
    (x.sign = false ∧ x.exp.toNat < 0x3fff ∧ Survives mode (f80Neg f80One) x))

/-- The call where the loops begin. -/
def log2Below (x : Float80) : Log2State :=
  ⟨.below, x, f80Zero, f80One, f80Two, 0, f80Zero, f80Zero⟩

section Steps

variable {mode : RoundingMode} {x : Float80} {r : Option Float80}

theorem endsLog2_nan (hx : f80Isnan x = true) : EndsLog2 mode x r ↔ some f80Nan = r := by
  apply Lib.Loop.returns_inr
  simp only [f80Log2Step, f80Log2Start, f80FromInt_zero, f80FromInt_one, f80FromInt_two, orStop, hx,
    if_true]

theorem endsLog2_start (hx : f80Isnan x = false) : EndsLog2 mode x r ↔
    match f80Lte mode x f80Zero with
    | none => none = r
    | some true => some f80Nan = r
    | some false => Returns (f80Log2Step mode) (log2Below x) r := by
  have hstep : f80Log2Step mode (f80Log2Start x) = orStop (f80Lte mode x f80Zero) fun small ↦
      if small then .inr (some f80Nan) else .inl (log2Below x) := by
    simp only [f80Log2Step, f80Log2Start, f80FromInt_zero, f80FromInt_one, f80FromInt_two, orStop, hx,
      Bool.false_eq_true, if_false]
    rfl
  rw [EndsLog2]
  cases h : f80Lte mode x f80Zero with
  | none =>
    rw [h] at hstep
    exact Lib.Loop.returns_inr hstep
  | some small =>
    rw [h] at hstep
    cases small with
    | false => exact Lib.Loop.returns_inl hstep
    | true => exact Lib.Loop.returns_inr hstep

theorem f80Lte_of_uncomparable {a b : Float80} (h : f80Uncomparable a b = true) :
    f80Lte mode a b = some false := by
  simp [f80Lte, f80Lt, f80Eq, h]

/-- Halving changes nothing. -/
theorem not_returns_above {s : Log2State} (hline : s.line = .above) (htwo : s.two = f80Two)
    (hx : s.x = f80Inf ∨ f80Uncomparable s.x f80Two = true) : ¬ Returns (f80Log2Step mode) s r := by
  refine Lib.Loop.not_returns_of_stays (P := fun s ↦ s.line = .above ∧ s.two = f80Two ∧
    (s.x = f80Inf ∨ f80Uncomparable s.x f80Two = true)) ?_ ⟨hline, htwo, hx⟩
  rintro s ⟨hline, htwo, hx⟩
  have hturn {y : Float80} (hgt : f80Gt mode s.x f80Two = some true)
      (hdiv : f80Div mode s.x f80Two = some y) :
      f80Log2Step mode s = .inl { s with ipart := s.ipart + 1, x := y } := by
    simp only [f80Log2Step, hline, htwo, hgt, hdiv, orStop, if_true]
  rcases hx with hx | hx
  · have hgt : f80Gt mode s.x f80Two = some true := by
      rw [hx]
      cases mode <;> decide
    have hdiv : f80Div mode s.x f80Two = some f80Inf := by
      rw [hx]
      cases mode <;> decide
    exact ⟨_, hturn hgt hdiv, hline, htwo, .inl rfl⟩
  · have hgt : f80Gt mode s.x f80Two = some true := by
      rw [f80Gt, f80Lte_of_uncomparable hx]
      rfl
    have hdiv : f80Div mode s.x f80Two = some f80Nan := by
      have htwo' : f80IsSupported f80Two = true := by decide
      have htwo'' : f80Isnan f80Two = false := by decide
      simp only [f80Uncomparable, htwo', htwo'', Bool.not_true, Bool.or_false] at hx
      rw [f80Div]
      cases hs : f80IsSupported s.x
      · simp only [htwo', Bool.not_false, Bool.true_or, if_true]
      · rw [hs, Bool.not_true, Bool.false_or] at hx
        simp only [htwo', hx, Bool.not_true, Bool.or_self, Bool.false_eq_true, if_false, if_true]
    have hnan : f80Uncomparable f80Nan f80Two = true := by decide
    exact ⟨_, hturn hgt hdiv, hline, htwo, .inr hnan⟩

theorem not_returns_below {s : Log2State} (hline : s.line = .below) (htwo : s.two = f80Two)
    (hx : f80IsSupported s.x = false) : ¬ Returns (f80Log2Step mode) s r := by
  have huncomparable (b : Float80) : f80Uncomparable s.x b = true := by
    rw [f80Uncomparable, hx]
    rfl
  have hlt : f80Lt mode s.x s.one = some false := by rw [f80Lt, if_pos (huncomparable _)]
  have hstep : f80Log2Step mode s = .inl { s with line := .above } := by
    simp only [f80Log2Step, hline, hlt, orStop, Bool.false_eq_true, if_false]
  rw [Lib.Loop.returns_inl hstep]
  exact not_returns_above rfl htwo (.inr (huncomparable _))

/-- A number that is not doubled stops the call, at the latest when one is halved. -/
theorem returns_log2Below (hx : f80IsSupported x = true) (hexp : x.exp ≠ expSpecial)
    (hlt : f80Lt mode x f80One ≠ some true) : Returns (f80Log2Step mode) (log2Below x) none := by
  have hnan := f80Isnan_of_finite hexp
  have hinf := f80Isinf_of_finite hexp
  have hdiv {a : Float80} (ha : f80IsSupported a = true) (hna : f80Isnan a = false)
      (hia : f80Isinf a = false) : f80Div mode a f80Two = none := by
    have hguard : f80Isnan f80Two = false ∧ f80Isinf f80Two = false ∧ f80Iszero f80Two = false := by
      decide
    apply f80Div_none ha (by decide)
    simp only [DivGuard, hna, hia, hguard.1, hguard.2.1, hguard.2.2]
    simp
  have hmore : f80Gt mode f80One f80Zero = some true := by cases mode <;> decide
  cases h : f80Lt mode x f80One with
  | none =>
    refine (Lib.Loop.returns_inr ?_).mpr rfl
    simp only [f80Log2Step, log2Below, h, orStop]
  | some less =>
    cases less with
    | true => exact absurd h hlt
    | false =>
      have hbelow : f80Log2Step mode (log2Below x) = .inl { log2Below x with line := .above } := by
        simp only [f80Log2Step, log2Below, h, orStop, Bool.false_eq_true, if_false]
      rw [Lib.Loop.returns_inl hbelow]
      cases hsmall : f80Lte mode x f80Two with
      | none =>
        refine (Lib.Loop.returns_inr ?_).mpr rfl
        simp only [f80Log2Step, log2Below, f80Gt, hsmall, orStop, Option.map_none]
      | some small =>
        cases small with
        | false =>
          refine (Lib.Loop.returns_inr ?_).mpr rfl
          simp only [f80Log2Step, log2Below, f80Gt, hsmall, orStop, Option.map_some, Bool.not_false,
            if_true, hdiv hx hnan hinf]
        | true =>
          have habove : f80Log2Step mode { log2Below x with line := .above }
              = .inl { log2Below x with line := .bits, bit := f80One } := by
            have hint : f80FromInt (BitVec.ofInt 64 0) = some f80Zero := f80FromInt_zero
            simp only [f80Log2Step, log2Below, f80Gt, hsmall, orStop, Option.map_some, Bool.not_true,
              Bool.false_eq_true, if_false, hint]
          have hbits : f80Log2Step mode { log2Below x with line := .bits, bit := f80One }
              = .inl { log2Below x with line := .squares, bit := f80One } := by
            simp only [f80Log2Step, log2Below, hmore, orStop, if_true]
          rw [Lib.Loop.returns_inl habove, Lib.Loop.returns_inl hbits]
          refine (Lib.Loop.returns_inr ?_).mpr rfl
          simp only [f80Log2Step, log2Below, hsmall, hmore, orStop, if_true,
            hdiv (a := f80One) (by decide) (by decide) (by decide)]

end Steps

section Compared

variable (mode : RoundingMode) {x : Float80} (hx : f80IsSupported x = true)
  (hnan : f80Isnan x = false)

include hx hnan

/-- The sign of the difference to zero. -/
theorem f80Lt_zero_iff (hzero : f80Iszero x = false) (v : Bool) : f80Lt mode x f80Zero = some v ↔
    (Cancels mode x (f80Neg f80Zero) ∧ v = false) ∨
      (Survives mode x (f80Neg f80Zero) ∧ v = x.sign) := by
  have hun : f80Uncomparable x f80Zero = false := by
    rw [comparable_iff]
    exact ⟨hx, by decide, hnan, by decide⟩
  have hinf : f80Isinf f80Zero = false := by decide
  have hexp : ¬ x.exp < f80Zero.exp := by
    rw [BitVec.lt_def]
    exact Nat.not_lt_zero _
  rw [f80Lt_eq_some_iff mode hun (by simp [hinf]) (by simp [hzero]), if_neg hexp]

theorem f80Eq_zero (hzero : f80Iszero x = false) : f80Eq x f80Zero = false := by
  have hzero' : f80Iszero f80Zero = true := by decide
  rw [← Bool.not_eq_true]
  intro h
  have hequal := ((eqRight x f80Zero).mp h).2
  rw [Float80.extended_inj hx (by decide) hnan (by decide)] at hequal
  rcases hequal with ⟨h, -⟩ | ⟨-, hexp, hsignif⟩
  · rw [hzero] at h
    cases h
  · rw [f80Iszero, ← hexp, ← hsignif, ← f80Iszero, hzero] at hzero'
    cases hzero'

theorem f80Lte_zero (hzero : f80Iszero x = false) :
    f80Lte mode x f80Zero = f80Lt mode x f80Zero := by
  rw [f80Lte, f80Eq_zero hx hnan hzero]
  cases f80Lt mode x f80Zero with
  | none => rfl
  | some less => cases less <;> rfl

omit hx hnan in
/-- The significand of a number that is far below the other one is shifted away. -/
theorem differenceWord_far {a b : Float80} (h : 127 < a.exp.toNat - b.exp.toNat) :
    differenceWord mode a b = a.signif.toNat * 2 ^ 64 := by
  rw [differenceWord, aligned, if_neg (by omega), if_neg (not_le.mpr h), Nat.sub_zero]

omit hx hnan in
theorem near_of_survives (hsign : x.sign = false) (h : Survives mode (f80Neg f80One) x) :
    0x3fff ≤ x.exp.toNat + 127 := by
  have hone : (f80Neg f80One).sign = true := by decide
  have hexp : (f80Neg f80One).exp.toNat = 0x3fff := by decide
  rw [Survives, if_neg (by rw [hone, hsign]; decide)] at h
  by_contra hfar
  have hword := differenceWord_far mode (a := f80Neg f80One) (b := x) (by omega)
  refine h.1 ?_
  rw [hword]
  exact Nat.mul_mod_left _ _

theorem f80Lt_one_iff (hsign : x.sign = false) (hinf : f80Isinf x = false) :
    f80Lt mode x f80One = some true ↔ x.exp.toNat < 0x3fff ∧ Survives mode (f80Neg f80One) x := by
  have hun : f80Uncomparable x f80One = false := by
    rw [comparable_iff]
    exact ⟨hx, by decide, hnan, by decide⟩
  have hone : f80One.sign = false := by decide
  have hzero : f80Iszero f80One = false := by decide
  have hexp : x.exp < f80One.exp ↔ x.exp.toNat < 0x3fff := BitVec.lt_def
  rw [f80Lt_eq_some_iff mode hun (by simp [hinf]) (by simp [hzero]), hone, hsign, ← hexp]
  by_cases h : x.exp < f80One.exp <;> simp [h]

omit hnan in
/-- Doubling shifts the significand away. -/
theorem supported_f80Mul_two (hlow : 0x3fff ≤ x.exp.toNat + 127) (hhigh : x.exp.toNat < 0x3fff) :
    f80IsSupported (f80Mul mode x f80Two) = false := by
  have htwo : f80IsSupported f80Two = true ∧ f80Two.exp ≠ expSpecial := by decide
  have hexp : x.exp ≠ expSpecial := by
    intro h
    rw [h, toNat_expSpecial] at hhigh
    omega
  have hnormal := Float80.le_signif_of_normal hx (show x.exp.toNat ≠ 0 by omega)
  have hlt := x.signif.isLt
  have hword := toNat_signif_mul x f80Two
  have hsignif : f80Two.signif.toNat = 2 ^ 63 := by decide
  have hplace : unbiasDenormal x.exp + unbiasDenormal f80Two.exp + 1 = x.exp.toNat - 16381 := by
    have hunbias : unbiasDenormal f80Two.exp = 1 := by decide
    have hne : x.exp ≠ expDenormal := by
      intro h
      rw [h] at hlow
      exact absurd hlow (by decide)
    rw [hunbias, unbiasDenormal, if_neg hne, unbias]
    omega
  rw [f80Mul_finite hx htwo.1 hexp htwo.2, hplace]
  rw [hsignif] at hword
  generalize uint128FromUint64 x.signif * uint128FromUint64 f80Two.signif = n at hword
  obtain ⟨-, hshift⟩ := normalizeShift_of_ge (n := n) (k := 1) (by omega) (by omega) (by omega)
  have hlost : (n <<< (64 + 1)).toNat = 0 := by
    rw [BitVec.toNat_shiftLeft, Nat.shiftLeft_eq, hword]
    omega
  have hsmall := mode.shifted_le (x.sign ^^ f80Two.sign) 0 64
  rw [← Bool.not_eq_true, u128NormalizeRound_high _ _ _ (by rw [hshift]; omega), hshift,
    supported_normal_iff (toNat_field (by omega) (by omega)) (by omega) (by omega), hlost]
  omega

end Compared

theorem supported_of_iszero {x : Float80} (h : f80Iszero x = true) : f80IsSupported x = true := by
  rw [f80Iszero, Bool.and_eq_true, beq_iff_eq, beq_iff_eq] at h
  rw [f80IsSupported_iff, h.1, h.2]
  decide

theorem not_endsLog2_of_inf (mode : RoundingMode) (r : Option Float80) :
    ¬ EndsLog2 mode f80Inf r := by
  have hlte : f80Lte mode f80Inf f80Zero = some false := by cases mode <;> decide
  have hlt : f80Lt mode f80Inf f80One = some false := by cases mode <;> decide
  have hstep : f80Log2Step mode (log2Below f80Inf) = .inl { log2Below f80Inf with line := .above } := by
    simp only [f80Log2Step, log2Below, hlt, orStop, Bool.false_eq_true, if_false]
  rw [endsLog2_start (by decide), hlte]
  simp only [Lib.Loop.returns_inl hstep]
  exact not_returns_above rfl rfl (.inl rfl)

theorem endsLog2_zero (mode : RoundingMode) {x : Float80} (h : f80Iszero x = true) :
    EndsLog2 mode x (some f80Nan) := by
  rw [f80Iszero, Bool.and_eq_true, beq_iff_eq, beq_iff_eq] at h
  have hx : x = .of 0 expDenormal x.sign := by
    conv_lhs => rw [← Float80.of_fields x, h.1, h.2]
  have hnan : f80Isnan x = false := by
    apply f80Isnan_of_finite
    rw [h.1]
    decide
  have hlte : f80Lte mode x f80Zero = some true := by
    rw [hx]
    cases mode <;> cases x.sign <;> decide
  rw [endsLog2_start hnan, hlte]

section Finite

variable (mode : RoundingMode) {x : Float80} (hx : f80IsSupported x = true)
  (hnan : f80Isnan x = false) (hzero : f80Iszero x = false)

include hx hnan hzero

theorem endsLog2_negative_iff (hsign : x.sign = true) (r : Option Float80) : EndsLog2 mode x r ↔
    (Survives mode x (f80Neg f80Zero) ∧ some f80Nan = r) ∨
      (¬ Survives mode x (f80Neg f80Zero) ∧ none = r) := by
  have hcancels : ¬ Cancels mode x (f80Neg f80Zero) := by
    rintro ⟨h, -⟩
    rw [hsign] at h
    exact h (by decide)
  have hlt := f80Lt_zero_iff mode hx hnan hzero
  simp only [hcancels, hsign, false_and, false_or] at hlt
  rw [endsLog2_start hnan, f80Lte_zero mode hx hnan hzero]
  by_cases h : Survives mode x (f80Neg f80Zero)
  · rw [(hlt true).mpr ⟨h, rfl⟩]
    simp only [h, true_and, not_true, false_and, or_false]
  · have hnone : f80Lt mode x f80Zero = none :=
      Option.eq_none_iff_forall_ne_some.mpr fun v hv ↦ h ((hlt v).mp hv).1
    rw [hnone]
    simp only [h, false_and, false_or, not_false_eq_true, true_and]

/-- A call with a positive number goes on for ever or is stopped. -/
theorem endsLog2_positive_iff (hsign : x.sign = false) (hinf : f80Isinf x = false)
    (r : Option Float80) : EndsLog2 mode x r ↔
      ¬ (x.exp.toNat < 0x3fff ∧ Survives mode (f80Neg f80One) x) ∧ none = r := by
  have hexp : x.exp ≠ expSpecial := by
    intro h
    rcases nan_or_inf hx h with h' | h'
    · rw [hnan] at h'
      cases h'
    · rw [hinf] at h'
      cases h'
  have hlt := f80Lt_zero_iff mode hx hnan hzero
  have hone := f80Lt_one_iff mode hx hnan hsign hinf
  rw [endsLog2_start hnan, f80Lte_zero mode hx hnan hzero, ← hone]
  by_cases hless : f80Lt mode x f80One = some true
  · obtain ⟨hbelow, hsurvives⟩ := hone.mp hless
    have hnear := near_of_survives mode hsign hsurvives
    have hcancels : Cancels mode x (f80Neg f80Zero) := by
      have hne : x.sign ≠ (f80Neg f80Zero).sign := by
        rw [hsign]
        decide
      have hfar : 127 < x.exp.toNat - (f80Neg f80Zero).exp.toNat := by
        have hexp' : (f80Neg f80Zero).exp.toNat = 0 := by decide
        omega
      refine ⟨hne, ?_⟩
      rw [differenceWord_far mode hfar]
      exact Nat.mul_mod_left _ _
    have hstep : f80Log2Step mode (log2Below x)
        = .inl { log2Below x with ipart := -1, x := f80Mul mode x f80Two } := by
      simp only [f80Log2Step, log2Below, hless, orStop, if_true]
      rfl
    rw [(hlt false).mpr (.inl ⟨hcancels, rfl⟩)]
    simp only [hless, not_true, false_and, iff_false]
    rw [Lib.Loop.returns_inl hstep]
    exact not_returns_below rfl rfl (supported_f80Mul_two mode hx hnear hbelow)
  · have hreturns := returns_log2Below hx hexp hless
    simp only [hless, not_false_eq_true, true_and]
    cases h : f80Lt mode x f80Zero with
    | none => exact Iff.rfl
    | some small =>
      cases small with
      | true =>
        have hfalse := (hlt true).mp h
        rw [hsign] at hfalse
        simp at hfalse
      | false =>
        constructor
        · exact hreturns.unique
        · rintro rfl
          exact hreturns

end Finite

/-- When a call returns a number, and when it ends at all. -/
theorem f80Log2_iff (mode : RoundingMode) (x : Float80) :
    ((∃ f, EndsLog2 mode x (some f)) ↔ Log2Guard mode x) ∧
    ((∃ r, EndsLog2 mode x r) ↔ ¬ Log2Forever mode x) := by
  cases hnan : f80Isnan x
  swap
  · simp [endsLog2_nan hnan, Log2Guard, Log2Forever, hnan]
  cases hx : f80IsSupported x
  · have hlte : f80Lte mode x f80Zero = some false := by
      apply f80Lte_of_uncomparable
      rw [f80Uncomparable, hx]
      rfl
    have hnot (r : Option Float80) : ¬ EndsLog2 mode x r := by
      rw [endsLog2_start hnan, hlte]
      exact not_returns_below rfl rfl hx
    have hzero : f80Iszero x = false := by
      cases h : f80Iszero x
      · rfl
      · rw [supported_of_iszero h] at hx
        cases hx
    simp [hnot, Log2Guard, Log2Forever, hnan, hx, hzero]
  cases hzero : f80Iszero x
  swap
  · have hends := endsLog2_zero mode hzero
    have hinf := f80Isinf_of_iszero hzero
    have hforever : ¬ Log2Forever mode x := by
      rintro ⟨-, h | ⟨h, -⟩ | ⟨hsign, -, h⟩⟩
      · rw [hx] at h
        cases h
      · rw [hinf] at h
        cases h
      · have hnear := near_of_survives mode hsign h
        rw [f80Iszero, Bool.and_eq_true, beq_iff_eq] at hzero
        rw [hzero.1] at hnear
        exact absurd hnear (by decide)
    exact ⟨iff_of_true ⟨_, hends⟩ (.inr (.inl hzero)), iff_of_true ⟨_, hends⟩ hforever⟩
  cases hsign : x.sign
  · have hguard : ¬ Log2Guard mode x := by simp [Log2Guard, hnan, hzero, hsign]
    cases hinf : f80Isinf x
    · have hends := endsLog2_positive_iff mode hx hnan hzero hsign hinf
      simp only [hends, hguard, Log2Forever, hnan, hx, hinf, hsign]
      simp
    · have hxinf : x = f80Inf := by
        have hexp := exp_of_f80Isinf hinf
        have hsignif : x.signif = f80Inf.signif :=
          BitVec.eq_of_toNat_eq ((f80Isinf_iff hx hexp).mp hinf)
        rw [← Float80.of_fields x, hexp, hsign, hsignif]
        rfl
      have hnot (r : Option Float80) : ¬ EndsLog2 mode x r := hxinf ▸ not_endsLog2_of_inf mode r
      simp only [hnot, exists_false, hguard, Log2Forever, hnan, hx, hinf, hsign]
      simp
  · have hends := endsLog2_negative_iff mode hx hnan hzero hsign
    simp only [hends, Log2Guard, Log2Forever, hnan, hx, hzero, hsign]
    by_cases h : Survives mode x (f80Neg f80Zero) <;> simp [h]

/-- With the positive infinity there is no end. -/
theorem not_endsLog2_inf : ¬ ∀ mode x, ∃ r, EndsLog2 mode x r := by
  intro h
  obtain ⟨r, hr⟩ := h .roundToNearest f80Inf
  exact not_endsLog2_of_inf _ r hr

end Isl.Emu
