import Mathlib.Logic.Function.Basic
import Mathlib.Data.List.Nodup
import Mathlib.Tactic.Tauto

/-!
Intrusive lists: every item has one pair of links, so it can be on one of the
lists at a time. A family of lists is a function from their heads, and the
objects that are on them are a function from their numbers.
-/

namespace Isl.Lib

section Objects

variable {ι α : Type*} [DecidableEq ι] {o : ι → Option α} {i x : ι} {a b : α}

/-- The objects that are left when one is freed. -/
theorem update_none_eq_some : Function.update o i none x = some a ↔ x ≠ i ∧ o x = some a := by
  rw [Function.update_apply]
  exact Option.ite_none_left_eq_some

theorem update_some_eq_some :
    Function.update o i (some b) x = some a ↔ x = i ∧ b = a ∨ x ≠ i ∧ o x = some a := by
  by_cases hx : x = i <;> simp [hx]

end Objects

namespace Links

variable {κ ι : Type*} {l : κ → List ι} {k k' : κ} {i j x : ι}

/-- Every item is on a list once at most. -/
def Nodup (l : κ → List ι) : Prop := ∀ k, (l k).Nodup

section Heads

variable [DecidableEq κ]

def add (l : κ → List ι) (k : κ) (i : ι) : κ → List ι := Function.update l k (i :: l k)

theorem mem_add : x ∈ add l k i k' ↔ (x = i ∧ k' = k) ∨ x ∈ l k' := by
  by_cases h : k' = k
  · subst h
    simp [add]
  · simp [add, h]

theorem Nodup.add (h : Nodup l) (hi : ∀ k, i ∉ l k) (k : κ) : Nodup (add l k i) := by
  intro k'
  by_cases hk : k' = k
  · subst hk
    simp [Links.add, hi k', h k']
  · simpa [Links.add, hk] using h k'

theorem mem_clear : x ∈ Function.update l k [] k' ↔ k' ≠ k ∧ x ∈ l k' := by
  by_cases h : k' = k <;> simp [h]

/-- A head with nothing on its list can be set up again. -/
theorem clear_eq (h : ∀ i, i ∉ l k) : Function.update l k [] = l := by
  rw [← List.eq_nil_iff_forall_not_mem.mpr h]
  exact Function.update_eq_self k l

end Heads

section Items

variable [DecidableEq ι]

def insertAfter (i j : ι) : List ι → List ι
  | [] => []
  | x :: xs => if x = i then x :: j :: xs else x :: insertAfter i j xs

/-- Link `j` behind `i`, on the list that `i` is on. -/
def addAfter (l : κ → List ι) (i j : ι) : κ → List ι := fun k ↦ insertAfter i j (l k)

def remove (l : κ → List ι) (i : ι) : κ → List ι := fun k ↦ (l k).filter (· ≠ i)

theorem mem_remove : x ∈ remove l i k ↔ x ∈ l k ∧ x ≠ i := by
  simp [remove]

theorem Nodup.remove (h : Nodup l) (i : ι) : Nodup (remove l i) := fun k ↦ (h k).filter _

theorem mem_insertAfter {xs : List ι} : x ∈ insertAfter i j xs ↔ x ∈ xs ∨ (x = j ∧ i ∈ xs) := by
  induction xs with
  | nil => simp [insertAfter]
  | cons y ys ih =>
    unfold insertAfter
    split
    · rename_i h
      subst h
      simp only [List.mem_cons, true_or, and_true]
      tauto
    · rename_i h
      have hne : i ≠ y := fun h' ↦ h h'.symm
      simp only [List.mem_cons, ih, hne, false_or]
      tauto

theorem mem_addAfter : x ∈ addAfter l i j k ↔ x ∈ l k ∨ (x = j ∧ i ∈ l k) := mem_insertAfter

theorem nodup_insertAfter {xs : List ι} (h : xs.Nodup) (hj : j ∉ xs) :
    (insertAfter i j xs).Nodup := by
  induction xs with
  | nil => exact h
  | cons y ys ih =>
    obtain ⟨hy, hys⟩ := List.nodup_cons.mp h
    obtain ⟨hjy, hjs⟩ := not_or.mp (mt List.mem_cons.mpr hj)
    unfold insertAfter
    split
    · refine List.nodup_cons.mpr ⟨?_, List.nodup_cons.mpr ⟨hjs, hys⟩⟩
      intro hmem
      rcases List.mem_cons.mp hmem with rfl | hmem
      · exact hjy rfl
      · exact hy hmem
    · refine List.nodup_cons.mpr ⟨?_, ih hys hjs⟩
      intro hmem
      rcases mem_insertAfter.mp hmem with hmem | ⟨rfl, -⟩
      · exact hy hmem
      · exact hjy rfl

theorem Nodup.addAfter (h : Nodup l) (hj : ∀ k, j ∉ l k) (i : ι) : Nodup (addAfter l i j) :=
  fun k ↦ nodup_insertAfter (h k) (hj k)

end Items

end Links

end Isl.Lib
