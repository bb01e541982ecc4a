import Mathlib.Data.List.DropRight
import Mathlib.Data.Nat.ModEq

/-! A list that lies in an array from some cell on and goes on at the array's start. -/

namespace Isl.Lib.Ring

variable {α : Type*}

/-- The `k` cells from the `p`th on. -/
def slice (a : ℕ → α) (p k : ℕ) : List α := (List.range k).map fun i ↦ a (p + i)

/-- The same, in an array of `n` cells that is a ring. -/
def window (n : ℕ) (a : ℕ → α) (p k : ℕ) : List α := (List.range k).map fun i ↦ a ((p + i) % n)

/-- The array with a list copied to the cells from the `p`th on. -/
def store (a : ℕ → α) (p : ℕ) (xs : List α) : ℕ → α :=
  fun i ↦ if p ≤ i then xs.getD (i - p) (a i) else a i

variable {n h k p j : ℕ} {a : ℕ → α} {xs : List α}

@[simp] theorem length_window : (window n a h k).length = k := by
  rw [window, List.length_map, List.length_range]

theorem window_congr {b : ℕ → α} (hab : ∀ i < k, a ((h + i) % n) = b ((h + i) % n)) :
    window n a h k = window n b h k :=
  List.map_congr_left fun i hi ↦ hab i (List.mem_range.mp hi)

theorem window_mod : window n a (h % n) k = window n a h k := by
  refine List.map_congr_left fun i _ ↦ ?_
  rw [Nat.mod_add_mod]

theorem window_add (n : ℕ) (a : ℕ → α) (h k j : ℕ) :
    window n a h (k + j) = window n a h k ++ window n a (h + k) j := by
  rw [window, List.range_add, List.map_append, List.map_map]
  refine congrArg _ (List.map_congr_left fun i _ ↦ ?_)
  rw [Function.comp_apply, Nat.add_assoc]

theorem take_window (hj : j ≤ k) : (window n a h k).take j = window n a h j := by
  obtain ⟨i, rfl⟩ := Nat.exists_eq_add_of_le hj
  rw [window_add, List.take_left' length_window]

theorem drop_window (hj : j ≤ k) : (window n a h k).drop j = window n a (h + j) (k - j) := by
  obtain ⟨i, rfl⟩ := Nat.exists_eq_add_of_le hj
  rw [window_add, List.drop_left' length_window, Nat.add_sub_cancel_left]

/-- A window that does not go round the ring. -/
theorem window_eq_slice (hp : p + k ≤ n) : window n a p k = slice a p k := by
  refine List.map_congr_left fun i hi ↦ ?_
  rw [Nat.mod_eq_of_lt (by have := List.mem_range.mp hi; omega)]

theorem slice_store : slice (store a p xs) p xs.length = xs := by
  apply List.ext_getElem
  · rw [slice, List.length_map, List.length_range]
  · intro i _ hi
    simp [slice, store, hi]

theorem store_of_notMem {i : ℕ} (hi : i < p ∨ p + xs.length ≤ i) : store a p xs i = a i := by
  rw [store]
  split
  · rw [List.getD_eq_getElem?_getD, List.getElem?_eq_none (by omega)]
    rfl
  · rfl

/-- What is stored behind a window leaves it alone, as long as both fit in the ring. -/
theorem window_store_behind (hp : (h + k) % n + xs.length ≤ n) (hk : k + xs.length ≤ n) :
    window n (store a ((h + k) % n) xs) h k = window n a h k := by
  refine window_congr fun i hi ↦ store_of_notMem ?_
  by_contra hin
  simp only [not_or, Nat.not_lt, Nat.not_le] at hin
  obtain ⟨j, hj⟩ := Nat.exists_eq_add_of_le hin.1
  have hjlen : j < xs.length := by omega
  have hn : (h + k) % n + j < n := by omega
  -- the two cells would be less than a whole round apart
  have hmod : h + i ≡ h + i + (k - i + j) [MOD n] := by
    have hsum : h + i + (k - i + j) = h + k + j := by omega
    rw [Nat.ModEq, hj, hsum, ← Nat.mod_add_mod (h + k), Nat.mod_eq_of_lt hn]
  have hdvd : n ∣ k - i + j := by
    have hd := (Nat.modEq_iff_dvd' (Nat.le_add_right _ _)).mp hmod
    rwa [Nat.add_sub_cancel_left] at hd
  have hle := Nat.le_of_dvd (by omega) hdvd
  omega

/-- Storing behind a window, and dropping from its front what then is too much. -/
theorem window_store {d : ℕ} (hp : (h + k) % n + xs.length ≤ n) (hd : d ≤ k)
    (hfit : k - d + xs.length ≤ n) :
    window n (store a ((h + k) % n) xs) (h + d) (k - d + xs.length) =
      (window n a h k ++ xs).drop d := by
  have htail : h + k = h + d + (k - d) := by omega
  rw [window_add, List.drop_append_of_le_length (by rw [length_window]; exact hd),
    drop_window hd]
  congr 1
  · rw [htail] at hp ⊢
    exact window_store_behind hp hfit
  · rw [← htail, ← window_mod, window_eq_slice hp, slice_store]

theorem rtake_rtake_append (xs ys : List α) (n : ℕ) :
    (xs.rtake n ++ ys).rtake n = (xs ++ ys).rtake n := by
  rw [List.rtake_eq_reverse_take_reverse, List.rtake_eq_reverse_take_reverse,
    List.rtake_eq_reverse_take_reverse]
  congr 1
  rw [List.reverse_append, List.reverse_append, List.reverse_reverse, List.take_append,
    List.take_append, List.take_take, Nat.min_eq_left (Nat.sub_le _ _)]

end Isl.Lib.Ring
