import Isl.Lib.Exec

/-!
Computations that stop for want of something, and are made again from the state they have
stopped in once it is there. A loop of steps that are stopped before they do anything is
then as far as it was when it stopped.
-/

namespace Isl.Lib

variable {ι ε σ τ : Type}

namespace Exec

variable {x : Exec ι ε σ Unit} {s t : σ}

theorem times_succ (x : Exec ι ε σ Unit) (n : ℕ) (s : σ) :
    x.times (n + 1) s = (x >>= fun _ ↦ x.times n) s := rfl

theorem times_of_steps (x : Exec ι ε σ Unit) (at_ : ℕ → σ) {n : ℕ}
    (h : ∀ j < n, x (at_ j) = .ok () (at_ (j + 1))) : x.times n (at_ 0) = .ok () (at_ n) := by
  induction n generalizing at_ with
  | zero => rfl
  | succ n ih =>
    rw [times_succ, bind_apply, h 0 (Nat.succ_pos n)]
    exact ih (fun j ↦ at_ (j + 1)) fun j hj ↦ h (j + 1) (Nat.succ_lt_succ hj)

/-- The rest of the times. -/
theorem times_add {j : ℕ} (h : x.times j s = .ok () t) (k : ℕ) :
    x.times (j + k) s = x.times k t := by
  induction j generalizing s with
  | zero =>
    cases h
    rw [Nat.zero_add]
  | succ j ih =>
    obtain ⟨_, u, hx, hrest⟩ := bind_eq_ok.mp h
    rw [Nat.add_right_comm]
    exact bind_eq hx (ih hrest)

end Exec

/-- From related states both end in related states, unless `x` is stopped, for a reason
that `I` gives, before it does anything. -/
def Follows (I : ι → σ → Prop) (R : σ → τ → Prop) (x : Exec ι ε σ Unit) (y : Exec ι ε τ Unit) :
    Prop :=
  ∀ s t, R s t → (∃ i, I i s ∧ x s = .stop i s) ∨
    ∃ s' t', x s = .ok () s' ∧ y t = .ok () t' ∧ R s' t'

section

variable {I : ι → σ → Prop} {R : σ → τ → Prop} {x : Exec ι ε σ Unit} {y : Exec ι ε τ Unit}
  {s : σ} {t : τ}

/-- A stop is between two times. -/
theorem Follows.times (h : Follows I R x y) (n : ℕ) (hR : R s t) :
    (∃ k ≤ n, ∃ i s' t', I i s' ∧ x.times n s = .stop i s' ∧ x.times k s = .ok () s' ∧
      y.times k t = .ok () t' ∧ R s' t') ∨
    ∃ s' t', x.times n s = .ok () s' ∧ y.times n t = .ok () t' ∧ R s' t' := by
  induction n generalizing s t with
  | zero => exact .inr ⟨s, t, rfl, rfl, hR⟩
  | succ n ih =>
    rcases h s t hR with ⟨i, hi, hstop⟩ | ⟨s₁, t₁, hx, hy, hR₁⟩
    · exact .inl ⟨0, Nat.zero_le _, i, s, t, hi, Exec.bind_stop hstop _, rfl, rfl, hR⟩
    · rcases ih hR₁ with ⟨k, hk, i, s', t', hi, hstop, hxk, hyk, hR'⟩ | ⟨s', t', hxn, hyn, hR'⟩
      · exact .inl ⟨k + 1, Nat.succ_le_succ hk, i, s', t', hi,
          Exec.bind_eq hx hstop, Exec.bind_eq hx hxk, Exec.bind_eq hy hyk, hR'⟩
      · exact .inr ⟨s', t', Exec.bind_eq hx hxn, Exec.bind_eq hy hyn, hR'⟩

end

/-- The states in which an attempt is made: the first, and after each stop one in which
something has been supplied. -/
inductive Retried (attempt : Exec ι ε σ Unit) (Supplied : σ → σ → Prop) (s : σ) : ℕ → σ → Prop
  | start : Retried attempt Supplied s 0 s
  | again {n : ℕ} {i : ι} {t u v : σ} : Retried attempt Supplied s n t →
      attempt t = .stop i u → Supplied u v → Retried attempt Supplied s (n + 1) v

namespace Retried

variable {attempt : Exec ι ε σ Unit} {Supplied : σ → σ → Prop} {P : σ → Prop} {s t : σ} {n : ℕ}

theorem invariant (h : Retried attempt Supplied s n t) (hs : P s)
    (hstep : ∀ t i u v, P t → attempt t = .stop i u → Supplied u v → P v) : P t := by
  induction h with
  | start => exact hs
  | again _ hstop hsupplied ih => exact hstep _ _ _ _ ih hstop hsupplied

/-- With something less lacking each time there is an end of it. -/
theorem count_le (lacks : σ → ℕ) (h : Retried attempt Supplied s n t) (hs : P s)
    (hstep : ∀ t i u v, P t → attempt t = .stop i u → Supplied u v → P v)
    (hless : ∀ t i u v, P t → attempt t = .stop i u → Supplied u v → lacks v < lacks t) :
    n + lacks t ≤ lacks s := by
  induction h with
  | start => exact Nat.le_of_eq (Nat.zero_add _)
  | again hrun hstop hsupplied ih =>
    have hlt := hless _ _ _ _ (hrun.invariant hs hstep) hstop hsupplied
    omega

end Retried

end Isl.Lib
