import Mathlib.Data.Finset.Card
import Mathlib.Logic.Function.Basic

namespace Isl.Lib.RefCount

variable {ι δ : Type*} [DecidableEq δ]

/-- The number of slots of the finite set `I` that hold a reference to `d`. -/
def refs (I : Finset ι) (slot : ι → Option δ) (d : δ) : ℕ :=
  (I.filter (fun i ↦ slot i = some d)).card

variable {I J : Finset ι} {s s' : ι → Option δ} {d : δ} {i : ι}

theorem refs_congr (h : ∀ i ∈ I, s i = s' i) : refs I s d = refs I s' d := by
  unfold refs
  congr 1
  exact Finset.filter_congr (fun i hi ↦ by rw [h i hi])

theorem refs_eq_zero_iff : refs I s d = 0 ↔ ∀ i ∈ I, s i ≠ some d := by
  simp [refs, Finset.filter_eq_empty_iff]

theorem refs_pos (hi : i ∈ I) (hs : s i = some d) : 0 < refs I s d :=
  Finset.card_pos.mpr ⟨i, Finset.mem_filter.mpr ⟨hi, hs⟩⟩

variable [DecidableEq ι]

/-- Slots outside the smaller set that hold nothing do not count. -/
theorem refs_subset (hIJ : I ⊆ J) (h : ∀ i ∈ J, i ∉ I → s i = none) :
    refs J s d = refs I s d := by
  unfold refs
  congr 1
  ext i
  simp only [Finset.mem_filter]
  refine ⟨fun ⟨hj, hs⟩ ↦ ⟨?_, hs⟩, fun ⟨hi, hs⟩ ↦ ⟨hIJ hi, hs⟩⟩
  by_contra hi
  rw [h i hj hi] at hs
  cases hs

/-- Overwriting one s moves one reference: what the s held loses one,
what it now holds gains one. -/
theorem refs_update (hi : i ∈ I) (new : Option δ) (d : δ) :
    refs I (Function.update s i new) d + (if s i = some d then 1 else 0) =
      refs I s d + (if new = some d then 1 else 0) := by
  have hrest (f : ι → Option δ) :
      refs I f d = ((I.erase i).filter (fun j ↦ f j = some d)).card +
        (if f i = some d then 1 else 0) := by
    unfold refs
    conv_lhs => rw [← Finset.insert_erase hi, Finset.filter_insert]
    split
    · rw [Finset.card_insert_of_notMem (by simp)]
    · rfl
  have hsame : (I.erase i).filter (fun j ↦ Function.update s i new j = some d) =
      (I.erase i).filter (fun j ↦ s j = some d) :=
    Finset.filter_congr (fun j hj ↦ by
      rw [Function.update_of_ne (Finset.ne_of_mem_erase hj)])
  rw [hrest (Function.update s i new), hrest s, hsame, Function.update_self]
  omega

theorem refs_clear (hi : i ∈ I) (hs : s i = some d) (e : δ) :
    refs I (Function.update s i none) e + (if d = e then 1 else 0) = refs I s e := by
  have h := refs_update (s := s) hi none e
  simpa [hs] using h

theorem refs_fill (hi : i ∈ I) (hs : s i = none) (e : δ) :
    refs I (Function.update s i (some d)) e = refs I s e + (if d = e then 1 else 0) := by
  have h := refs_update (s := s) hi (some d) e
  simpa [hs] using h

end Isl.Lib.RefCount
