import Mathlib.Logic.Function.Basic
import Mathlib.Data.Nat.Notation

/-!
Objects with a reference count, numbered in the order they are allocated. The
count of a freed object is zero, and a call that follows a pointer to one has
no result.
-/

namespace Isl.Lib

@[ext]
structure Pool (α : Type*) where
  refcount : ℕ → ℕ
  val : ℕ → α
  next : ℕ
  unused : ∀ i, next ≤ i → refcount i = 0

namespace Pool

variable {α : Type*} {p p' q : Pool α} {i j n : ℕ} {v : α}

def live (p : Pool α) (i : ℕ) : Prop := p.refcount i ≠ 0

instance (p : Pool α) (i : ℕ) : Decidable (p.live i) := inferInstanceAs (Decidable (_ ≠ _))

theorem live.lt (h : p.live i) : i < p.next := Nat.lt_of_not_le fun hle ↦ h (p.unused i hle)

/-- Objects with the given counts. -/
def ofCounts (counts : List ℕ) (val : ℕ → α) : Pool α where
  refcount i := counts.getD i 0
  val := val
  next := counts.length
  unused i hi := by simp [List.getElem?_eq_none hi]

def setCount (p : Pool α) (i n : ℕ) (h : p.live i) : Pool α where
  refcount := Function.update p.refcount i n
  val := p.val
  next := p.next
  unused j hj := by
    rw [Function.update_of_ne (Nat.ne_of_gt (Nat.lt_of_lt_of_le h.lt hj))]
    exact p.unused j hj

def set (p : Pool α) (i : ℕ) (v : α) : Pool α := { p with val := Function.update p.val i v }

def get (p : Pool α) (i : ℕ) : Option α := if p.live i then some (p.val i) else none

def alloc (p : Pool α) (v : α) : ℕ × Pool α :=
  (p.next,
    { refcount := Function.update p.refcount p.next 1
      val := Function.update p.val p.next v
      next := p.next + 1
      unused := fun j hj ↦ by
        rw [Function.update_of_ne (Nat.ne_of_gt hj)]
        exact p.unused j (Nat.le_of_lt hj) })

def retain (p : Pool α) (i : ℕ) : Option (Pool α) :=
  if h : p.live i then some (p.setCount i (p.refcount i + 1) h) else none

def release (p : Pool α) (i : ℕ) : Option (Pool α) :=
  if h : p.live i then some (p.setCount i (p.refcount i - 1) h) else none

theorem get_eq_some : p.get i = some v ↔ p.live i ∧ p.val i = v := by
  simp [get]

theorem get_of_live (h : p.live i) : p.get i = some (p.val i) := if_pos h

/-- One more reference to an object. -/
structure Retained (i : ℕ) (p p' : Pool α) : Prop where
  val : p'.val = p.val
  next : p'.next = p.next
  refcount : ∀ j, p'.refcount j = p.refcount j + if j = i then 1 else 0

theorem Retained.unique (h : Retained i p p') (h' : Retained i q p') : p = q := by
  ext j
  · have hj := h.refcount j
    rw [h'.refcount j] at hj
    exact (Nat.add_right_cancel hj).symm
  · exact congrFun (h.val.symm.trans h'.val) j
  · exact h.next.symm.trans h'.next

theorem Retained.live (h : Retained i p p') : p'.live i := by
  rw [Pool.live, h.refcount i, if_pos rfl]
  exact Nat.succ_ne_zero _

theorem Retained.live_of_live (h : Retained i p p') (hj : p.live j) : p'.live j := by
  rw [Pool.live, h.refcount j]
  exact fun heq ↦ hj (Nat.eq_zero_of_add_eq_zero_right heq)

theorem retained_setCount_succ (h : p.live i) :
    Retained i p (p.setCount i (p.refcount i + 1) h) where
  val := rfl
  next := rfl
  refcount j := by
    by_cases hj : j = i
    · simp [setCount, hj]
    · simp [setCount, hj]

theorem retained_setCount_pred (h : p.live i) :
    Retained i (p.setCount i (p.refcount i - 1) h) p where
  val := rfl
  next := rfl
  refcount j := by
    have hpos := Nat.succ_pred_eq_of_ne_zero h
    by_cases hj : j = i
    · simp only [setCount, hj, Function.update_self, if_true]
      exact hpos.symm
    · simp [setCount, hj]

theorem retain_of_live (h : p.live i) : ∃ p', p.retain i = some p' ∧ Retained i p p' :=
  ⟨_, dif_pos h, retained_setCount_succ h⟩

theorem release_eq_some : p.release i = some p' ↔ Retained i p' p := by
  constructor
  · intro h
    unfold release at h
    split at h
    · cases h
      exact retained_setCount_pred _
    · cases h
  · intro h
    rw [release, dif_pos h.live]
    exact congrArg some ((retained_setCount_pred h.live).unique h)

theorem release_of_live (h : p.live i) : ∃ p', p.release i = some p' ∧ Retained i p' p :=
  ⟨_, dif_pos h, retained_setCount_pred h⟩

/-- References to two objects can be taken in either order. -/
theorem Retained.comm (h : Retained i p p') (h' : Retained j p' q) :
    ∃ r, Retained j p r ∧ Retained i r q := by
  obtain ⟨r, -, hr⟩ := release_of_live (h'.live_of_live h.live)
  refine ⟨r, ⟨?_, ?_, fun x ↦ ?_⟩, hr⟩
  · exact hr.val.symm.trans (h'.val.trans h.val)
  · exact hr.next.symm.trans (h'.next.trans h.next)
  · have hx := hr.refcount x
    rw [h'.refcount x, h.refcount x] at hx
    omega

/-- The same objects, with the same counts. -/
structure Same (p q : Pool α) : Prop where
  refcount : ∀ i, q.refcount i = p.refcount i
  val : ∀ i, p.live i → q.val i = p.val i

theorem Same.refl (p : Pool α) : Same p p := ⟨fun _ ↦ rfl, fun _ _ ↦ rfl⟩

/-- A reference that a release gives back. -/
def Acquired (p : Pool α) (i : ℕ) (p' : Pool α) : Prop := ∃ q, p'.release i = some q ∧ Same p q

theorem Retained.acquired (h : Retained i p p') : Acquired p i p' :=
  ⟨p, release_eq_some.mpr h, .refl p⟩

theorem refcount_alloc (p : Pool α) (v : α) (j : ℕ) :
    (p.alloc v).2.refcount j = p.refcount j + if j = p.next then 1 else 0 := by
  by_cases hj : j = p.next
  · simp [alloc, hj, p.unused]
  · simp [alloc, hj]

theorem val_alloc (p : Pool α) (v : α) (j : ℕ) :
    (p.alloc v).2.val j = if j = p.next then v else p.val j := Function.update_apply _ _ _ _

theorem live_alloc (p : Pool α) (v : α) : (p.alloc v).2.live p.next := by
  simp [live, alloc]

theorem live_alloc_of_live (h : p.live i) (v : α) : (p.alloc v).2.live i := by
  rw [live, refcount_alloc]
  exact fun heq ↦ h (Nat.eq_zero_of_add_eq_zero_right heq)

theorem acquired_alloc (p : Pool α) (v : α) : Acquired p p.next (p.alloc v).2 := by
  obtain ⟨q, hq, hr⟩ := release_of_live (live_alloc p v)
  refine ⟨q, hq, fun j ↦ ?_, fun j hj ↦ ?_⟩
  · have hj := hr.refcount j
    rw [refcount_alloc] at hj
    exact (Nat.add_right_cancel hj).symm
  · rw [← hr.val, val_alloc, if_neg (Nat.ne_of_lt hj.lt)]

end Pool

end Isl.Lib
