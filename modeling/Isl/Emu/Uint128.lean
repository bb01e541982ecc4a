import Mathlib.Data.BitVec
import Mathlib.Data.Nat.Size

/-! The 128-bit numbers of `emu/uint128.c`, where the compiler has a type for them. -/

namespace Isl.Emu

abbrev Uint128 := BitVec 128

/-- `__builtin_clzl`, and its like for other widths. -/
def builtinClz {w : ℕ} (x : BitVec w) : ℕ := w - x.toNat.size

def uint128FromUint64 (x : BitVec 64) : Uint128 := x.setWidth 128

def uint128ToUint64 (x : Uint128) : BitVec 64 := x.setWidth 64

def uint128CountLeadingZeros (x : Uint128) : ℕ :=
  ((List.range 128).find? fun j ↦ (x &&& (1#128 <<< 127) >>> j) != 0).getD 128

/-- The sum, and whether it overflows. -/
def uint128Add (x y : Uint128) : Uint128 × Bool := (x + y, x + y < x || x + y < y)

/-- The bits of a number that is shifted to the top of its word. -/
theorem leading_bounds {n w : ℕ} (hn : n ≠ 0) (hlt : n < 2 ^ (w + 1)) :
    2 ^ w ≤ n * 2 ^ (w + 1 - n.size) ∧ n * 2 ^ (w + 1 - n.size) < 2 ^ (w + 1) := by
  have hsize : n.size ≤ w + 1 := Nat.size_le.mpr hlt
  have hpos : 0 < n.size := Nat.size_pos.mpr (Nat.pos_of_ne_zero hn)
  have hlow : 2 ^ (n.size - 1) ≤ n := Nat.lt_size.mp (by omega)
  have hhigh : n < 2 ^ n.size := Nat.lt_size_self n
  constructor
  · calc 2 ^ w = 2 ^ (n.size - 1) * 2 ^ (w + 1 - n.size) := by
          rw [← pow_add]
          congr 1
          omega
      _ ≤ n * 2 ^ (w + 1 - n.size) := Nat.mul_le_mul_right _ hlow
  · calc n * 2 ^ (w + 1 - n.size) < 2 ^ n.size * 2 ^ (w + 1 - n.size) :=
          Nat.mul_lt_mul_of_pos_right hhigh (Nat.two_pow_pos _)
      _ = 2 ^ (w + 1) := by
          rw [← pow_add]
          congr 1
          omega

namespace Uint128Div

structure Loop where
  top : Uint128
  quotient : Uint128
  remainder : Uint128

/-- One turn of the loop. The bit that leaves `top` is added to nothing. -/
def turn (divisor : Uint128) (s : Loop) : Loop :=
  let remainder := s.remainder + s.remainder
  let top := s.top + s.top
  let quotient := s.quotient + s.quotient
  if divisor ≤ remainder then ⟨top, quotient + 1, remainder - divisor⟩
  else ⟨top, quotient, remainder⟩

def run (divisor : Uint128) : ℕ → Loop → Loop
  | 0, s => s
  | n + 1, s => run divisor n (turn divisor s)

end Uint128Div

/-- `uint128_div`. Its last statement reads through `overflow`, which is `none`
for a null pointer. -/
def uint128Div (overflow : Option Bool) (dividend divisor : Uint128) : Option (Uint128 × Bool) :=
  let bits := uint128CountLeadingZeros dividend
  let s := Uint128Div.run divisor (128 - bits) ⟨dividend <<< bits, 0, 0⟩
  overflow.map fun o ↦ (s.quotient, if o then divisor == 0 else o)

namespace Uint128Div

/-- Nothing comes into the remainder, so it never reaches the divisor. -/
theorem turn_eq {divisor : Uint128} (hdivisor : divisor ≠ 0) (top : Uint128) :
    turn divisor ⟨top, 0, 0⟩ = ⟨top + top, 0, 0⟩ := by
  have hlt : ¬ divisor ≤ 0 + 0 := fun h ↦ hdivisor (BitVec.le_zero_iff.mp h)
  simp only [turn, if_neg hlt]
  rfl

theorem quotient_run {divisor : Uint128} (hdivisor : divisor ≠ 0) (turns : ℕ) (top : Uint128) :
    (run divisor turns ⟨top, 0, 0⟩).quotient = 0 := by
  induction turns generalizing top with
  | zero => rfl
  | succ turns ih =>
    rw [run, turn_eq hdivisor]
    exact ih (top + top)

end Uint128Div

/-- `uint128_div` comes back, with the quotient. -/
def Divides (overflow : Option Bool) (dividend divisor : Uint128) : Prop :=
  ∃ quotient o, uint128Div overflow dividend divisor = some (quotient, o) ∧
    quotient.toNat = dividend.toNat / divisor.toNat

theorem uint128Div_some {divisor : Uint128} (hdivisor : divisor ≠ 0) (o : Bool)
    (dividend : Uint128) :
    uint128Div (some o) dividend divisor = some (0, if o then divisor == 0 else o) := by
  simp only [uint128Div, Option.map_some, Uint128Div.quotient_run hdivisor]

/-- Through the null pointer it never comes back. With a flag to write the quotient is
always 0. -/
theorem uint128Div_never (dividend : Uint128) {divisor : Uint128} (hdivisor : divisor ≠ 0) :
    ¬ Divides none dividend divisor ∧
      ∀ o, Divides (some o) dividend divisor ↔ dividend < divisor := by
  have hpos : divisor.toNat ≠ 0 := fun h ↦ hdivisor (BitVec.eq_of_toNat_eq h)
  refine ⟨?_, fun o ↦ ?_⟩
  · rintro ⟨_, _, hnone, -⟩
    exact nomatch hnone
  · rw [Divides, uint128Div_some hdivisor, BitVec.lt_def, ← Nat.div_eq_zero_iff_lt (by omega)]
    constructor
    · rintro ⟨_, _, hsome, hquotient⟩
      obtain ⟨rfl, -⟩ := Prod.mk.inj (Option.some.inj hsome)
      exact hquotient.symm
    · intro hzero
      exact ⟨0, _, rfl, hzero.symm⟩

theorem uint128Div_never_one : (1 : Uint128) ≠ 0 ∧ ¬ Divides none 1 1 ∧
    ∀ o, Divides (some o) 1 1 ↔ (1 : Uint128) < 1 :=
  ⟨by decide, uint128Div_never 1 (by decide)⟩

theorem not_divides_one : ¬ ∀ dividend divisor : Uint128, divisor ≠ 0 →
    Divides none dividend divisor := by
  intro h
  obtain ⟨_, _, hnone, -⟩ := h 1 1 (by decide)
  exact nomatch hnone

end Isl.Emu
