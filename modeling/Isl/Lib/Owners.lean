import Mathlib.Data.Set.Card
import Mathlib.Logic.Function.Basic

/-! Counts of shared objects: as many as there are holders that point to them. -/

namespace Isl.Lib

variable {κ ι : Type*}

structure Owned (count : κ → ℕ) (own : ι → Option κ) : Prop where
  finite : {i | (own i).isSome}.Finite
  counts : ∀ x, count x = {i | own i = some x}.ncard

namespace Owned

variable {count count' : κ → ℕ} {own : ι → Option κ} {i : ι} {x y : κ}

theorem finite_of (h : Owned count own) (x : κ) : {i | own i = some x}.Finite :=
  h.finite.subset fun _ hi ↦ Option.isSome_of_eq_some hi

theorem pos (h : Owned count own) (hi : own i = some x) : count x ≠ 0 := by
  rw [h.counts x]
  exact Set.ncard_ne_zero_of_mem hi (h.finite_of x)

variable [DecidableEq ι]

theorem setOf_update_of_ne (hi : own i ≠ some x) {o : Option κ} (ho : o ≠ some x) :
    {j | Function.update own i o j = some x} = {j | own j = some x} := by
  ext j
  by_cases hj : j = i
  · subst hj
    simp [hi, ho]
  · simp [hj]

theorem setOf_update (own : ι → Option κ) (i : ι) (x : κ) :
    {j | Function.update own i (some x) j = some x} = insert i {j | own j = some x} := by
  ext j
  by_cases hj : j = i
  · simp [hj]
  · simp [hj]

variable [DecidableEq κ]

/-- A new holder. -/
theorem add (h : Owned count own) (hi : own i = none)
    (hc : ∀ y, count' y = count y + if y = x then 1 else 0) :
    Owned count' (Function.update own i (some x)) := by
  refine ⟨(h.finite.insert i).subset fun j hj ↦ ?_, fun y ↦ ?_⟩
  · by_cases hji : j = i
    · exact .inl hji
    · exact .inr (by simpa [hji] using hj)
  · rw [hc, h.counts y]
    by_cases hy : y = x
    · subst hy
      have hne : i ∉ {j | own j = some y} := by simp [hi]
      rw [if_pos rfl, setOf_update, Set.ncard_insert_of_notMem hne (h.finite_of y)]
    · rw [if_neg hy, setOf_update_of_ne (by simp [hi]) (by simpa using Ne.symm hy), Nat.add_zero]

/-- A holder that lets go. -/
theorem drop (h : Owned count own) (hi : own i = some x)
    (hc : ∀ y, count y = count' y + if y = x then 1 else 0) :
    Owned count' (Function.update own i none) := by
  refine ⟨h.finite.subset fun j hj ↦ ?_, fun y ↦ ?_⟩
  · by_cases hji : j = i
    · simp [hji] at hj
    · simpa [hji] using hj
  · have hy := hc y
    rw [h.counts y] at hy
    by_cases hyx : y = x
    · subst hyx
      have hins : {j | own j = some y} =
          insert i {j | Function.update own i none j = some y} := by
        ext j
        by_cases hj : j = i
        · simp [hj, hi]
        · simp [hj]
      have hne : i ∉ {j | Function.update own i none j = some y} := by simp
      have hfin : {j | Function.update own i none j = some y}.Finite :=
        (h.finite_of y).subset (hins ▸ Set.subset_insert _ _)
      rw [if_pos rfl, hins, Set.ncard_insert_of_notMem hne hfin] at hy
      exact (Nat.succ.inj hy).symm
    · have hne : own i ≠ some y := by
        rw [hi]
        simpa using Ne.symm hyx
      rw [setOf_update_of_ne hne (by simp)]
      rw [if_neg hyx] at hy
      exact hy.symm

end Owned

end Isl.Lib
