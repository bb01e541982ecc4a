import Isl.Lib.Pool
import Mathlib.Algebra.Order.BigOperators.Group.Finset

/-! Sums over the objects in use of a pool. -/

namespace Isl.Lib.Pool

variable {α : Type*} {p q : Pool α} {i : ℕ} {v : α}

def total (p : Pool α) (w : α → ℕ) : ℕ :=
  ∑ i ∈ Finset.range p.next, if p.live i then w (p.val i) else 0

theorem total_congr (w : α → ℕ) (hn : q.next = p.next) (hl : ∀ i, q.live i ↔ p.live i)
    (hv : ∀ i, p.live i → q.val i = p.val i) : q.total w = p.total w := by
  unfold total
  rw [hn]
  refine Finset.sum_congr rfl fun i _ ↦ ?_
  by_cases hi : p.live i
  · rw [if_pos hi, if_pos ((hl i).mpr hi), hv i hi]
  · rw [if_neg hi, if_neg (mt (hl i).mp hi)]

/-- One object counts in the total. -/
theorem le_total (w : α → ℕ) (hi : p.live i) : w (p.val i) ≤ p.total w := by
  have h := Finset.single_le_sum (f := fun i ↦ if p.live i then w (p.val i) else 0)
    (fun _ _ ↦ Nat.zero_le _) (Finset.mem_range.mpr hi.lt)
  rwa [if_pos hi] at h

/-- When one object changes, what it counted for is replaced. -/
theorem total_of_eq (w : α → ℕ) (hi : i < p.next) (hn : q.next = p.next)
    (heq : ∀ j, j ≠ i → (q.live j ↔ p.live j) ∧ (p.live j → q.val j = p.val j)) :
    q.total w + (if p.live i then w (p.val i) else 0) =
      p.total w + if q.live i then w (q.val i) else 0 := by
  have hmem : i ∈ Finset.range p.next := Finset.mem_range.mpr hi
  have hp := Finset.add_sum_erase (Finset.range p.next)
    (fun i ↦ if p.live i then w (p.val i) else 0) hmem
  have hq := Finset.add_sum_erase (Finset.range p.next)
    (fun i ↦ if q.live i then w (q.val i) else 0) hmem
  have hrest : ∑ j ∈ (Finset.range p.next).erase i, (if q.live j then w (q.val j) else 0) =
      ∑ j ∈ (Finset.range p.next).erase i, if p.live j then w (p.val j) else 0 := by
    refine Finset.sum_congr rfl fun j hj ↦ ?_
    obtain ⟨hl, hv⟩ := heq j (Finset.ne_of_mem_erase hj)
    by_cases hpj : p.live j
    · rw [if_pos hpj, if_pos (hl.mpr hpj), hv hpj]
    · rw [if_neg hpj, if_neg (mt hl.mp hpj)]
  unfold total
  rw [hn]
  omega

theorem total_set (w : α → ℕ) (hi : p.live i) (v : α) :
    (p.set i v).total w + w (p.val i) = p.total w + w v := by
  have h := total_of_eq (q := p.set i v) w hi.lt rfl fun j hj ↦
    ⟨Iff.rfl, fun _ ↦ Function.update_of_ne hj _ _⟩
  have hl : (p.set i v).live i := hi
  have hv : (p.set i v).val i = v := Function.update_self _ _ _
  rwa [if_pos hi, if_pos hl, hv] at h

theorem total_alloc (w : α → ℕ) (p : Pool α) (v : α) : (p.alloc v).2.total w = p.total w + w v := by
  have hnew : (p.alloc v).2.val p.next = v := by rw [val_alloc, if_pos rfl]
  have hrest : ∑ i ∈ Finset.range p.next, (if (p.alloc v).2.live i then w ((p.alloc v).2.val i) else 0) =
      p.total w := by
    refine Finset.sum_congr rfl fun i hi ↦ ?_
    have hne : i ≠ p.next := Nat.ne_of_lt (Finset.mem_range.mp hi)
    have hl : (p.alloc v).2.live i ↔ p.live i := by simp [live, refcount_alloc, hne]
    rw [val_alloc, if_neg hne]
    exact if_congr hl rfl rfl
  have hnext : (p.alloc v).2.next = p.next + 1 := rfl
  rw [total, hnext, Finset.sum_range_succ, hrest, if_pos (live_alloc p v), hnew]

theorem Retained.total (h : Retained i p q) (hi : p.live i) (w : α → ℕ) :
    q.total w = p.total w := by
  refine total_congr w h.next (fun j ↦ ?_) fun j _ ↦ congrFun h.val j
  by_cases hj : j = i
  · subst hj
    exact iff_of_true h.live hi
  · simp [Pool.live, h.refcount, hj]

/-- The last reference takes the object out of the total. -/
theorem Retained.total_of_last (h : Retained i p q) (hi : ¬p.live i) (w : α → ℕ) :
    q.total w = p.total w + w (q.val i) := by
  have heq := total_of_eq w h.live.lt h.next.symm fun j hj ↦
    ⟨by simp [Pool.live, h.refcount, hj], fun _ ↦ (congrFun h.val j).symm⟩
  rw [if_pos h.live, if_neg hi] at heq
  omega

end Isl.Lib.Pool
