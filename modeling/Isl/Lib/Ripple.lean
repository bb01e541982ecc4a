import Mathlib.Data.Nat.Digits.Defs
import Mathlib.Tactic.Linarith
import Mathlib.Tactic.Ring

/-!
Numbers of several digits added from the lowest digit up, with a carry between
them. A subtraction is the same read the other way: the difference and the
subtrahend add up to the minuend.
-/

namespace Isl.Lib.Ripple

/-- Two digits and their sum, with the carry that goes in to the lowest place and the one
that comes out of the highest. -/
inductive Adds (b : ℕ) : ℕ → List (ℕ × ℕ × ℕ) → ℕ → Prop
  | nil (c : ℕ) : Adds b c [] c
  | cons {x y r c c' c'' : ℕ} {ds : List (ℕ × ℕ × ℕ)} :
      r + b * c' = x + y + c → Adds b c' ds c'' → Adds b c ((x, y, r) :: ds) c''

variable {b c c' : ℕ} {ds : List (ℕ × ℕ × ℕ)}

/-- Every place exact makes the whole exact. -/
theorem Adds.exact (h : Adds b c ds c') :
    Nat.ofDigits b (ds.map fun d ↦ d.2.2) + b ^ ds.length * c' =
      Nat.ofDigits b (ds.map fun d ↦ d.1) + Nat.ofDigits b (ds.map fun d ↦ d.2.1) + c := by
  induction h with
  | nil c => simp
  | @cons x y r c c' c'' ds hplace _ ih =>
    simp only [List.map_cons, Nat.ofDigits_cons, List.length_cons, pow_succ]
    have hmul := congrArg (b * ·) ih
    simp only [Nat.mul_add] at hmul
    linarith

end Isl.Lib.Ripple
