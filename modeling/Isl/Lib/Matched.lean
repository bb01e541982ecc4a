import Mathlib.Data.List.Count
import Mathlib.Data.Nat.Notation

/-! Records of what was put and taken, newest first. -/

namespace Isl.Lib

inductive Mark (κ : Type*)
  | put (k : κ)
  | take (k : κ)
deriving DecidableEq

variable {κ : Type*} [DecidableEq κ] {log l : List (Mark κ)} {k : κ} {ks : List κ}

/-- Whenever something was taken, one that was put before was still there. -/
def Matched (log : List (Mark κ)) : Prop :=
  ∀ l, l <:+ log → ∀ k, l.count (.take k) ≤ l.count (.put k)

namespace Matched

theorem nil : Matched ([] : List (Mark κ)) := by
  intro l hl k
  rw [List.suffix_nil.mp hl]
  exact Nat.le_refl _

theorem count_le (h : Matched log) (k : κ) : log.count (.take k) ≤ log.count (.put k) :=
  h log List.suffix_rfl k

theorem cons {m : Mark κ} (h : Matched log)
    (hm : ∀ k, (m :: log).count (.take k) ≤ (m :: log).count (.put k)) : Matched (m :: log) := by
  intro l hl k
  obtain rfl | hl := List.suffix_cons_iff.mp hl
  · exact hm k
  · exact h l hl k

theorem put (h : Matched log) (k : κ) : Matched (.put k :: log) := by
  refine h.cons fun j ↦ ?_
  rw [List.count_cons_of_ne (by simp)]
  exact Nat.le_trans (h.count_le j) List.count_le_count_cons

/-- What is taken at once is all there. -/
theorem takes (h : Matched log)
    (hk : ∀ k, (ks.map Mark.take ++ log).count (.take k) ≤ log.count (.put k)) :
    Matched (ks.map .take ++ log) := by
  induction ks with
  | nil => exact h
  | cons k ks ih =>
    refine (ih fun j ↦ ?_).cons fun j ↦ ?_
    · exact Nat.le_trans List.count_le_count_cons (hk j)
    · have hput : (ks.map Mark.take).count (Mark.put j) = 0 := List.count_eq_zero.mpr (by simp)
      have hne : Mark.take k ≠ Mark.put j := by simp
      rw [List.count_cons_of_ne hne, List.count_append, hput, Nat.zero_add]
      exact hk j

end Matched

end Isl.Lib
