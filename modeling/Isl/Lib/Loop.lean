import Mathlib.Data.Nat.Notation
import Mathlib.Logic.Basic

/-! Loops that may not end: a step gives the next state or the result. -/

namespace Isl.Lib.Loop

variable {σ τ ρ : Type*}

def run (step : σ → σ ⊕ ρ) : ℕ → σ → Option ρ
  | 0, _ => none
  | n + 1, s =>
    match step s with
    | .inl t => run step n t
    | .inr r => some r

inductive Returns (step : σ → σ ⊕ ρ) : σ → ρ → Prop
  | done {s : σ} {r : ρ} : step s = .inr r → Returns step s r
  | next {s t : σ} {r : ρ} : step s = .inl t → Returns step t r → Returns step s r

variable {step : σ → σ ⊕ ρ} {step' : τ → τ ⊕ ρ} {s t : σ} {r r' : ρ}

theorem run_invariant {P : σ → Prop} {Q : ρ → Prop} (hP : ∀ s t, P s → step s = .inl t → P t)
    (hQ : ∀ s r, P s → step s = .inr r → Q r) {n : ℕ} (hs : P s) (h : run step n s = some r) :
    Q r := by
  induction n generalizing s with
  | zero => cases h
  | succ n ih =>
    unfold run at h
    split at h
    · exact ih (hP _ _ hs ‹_›) h
    · cases h
      exact hQ _ _ hs ‹_›

theorem run_mono {n k : ℕ} (hnk : n ≤ k) (h : run step n s = some r) : run step k s = some r := by
  induction n generalizing s k with
  | zero => cases h
  | succ n ih =>
    obtain ⟨k, rfl⟩ := Nat.exists_eq_succ_of_ne_zero (Nat.ne_zero_of_lt hnk)
    unfold run at h ⊢
    split at h
    · exact ih (Nat.succ_le_succ_iff.mp hnk) h
    · exact h

theorem returns_iff_run : Returns step s r ↔ ∃ n, run step n s = some r := by
  constructor
  · intro h
    induction h with
    | done h => exact ⟨1, by simp [run, h]⟩
    | next h _ ih =>
      obtain ⟨n, hn⟩ := ih
      exact ⟨n + 1, by simp [run, h, hn]⟩
  · rintro ⟨n, hn⟩
    induction n generalizing s with
    | zero => cases hn
    | succ n ih =>
      unfold run at hn
      split at hn
      · exact .next ‹_› (ih hn)
      · cases hn
        exact .done ‹_›

theorem returns_inr (h : step s = .inr r') : Returns step s r ↔ r' = r := by
  constructor
  · intro hr
    cases hr with
    | done h' =>
      rw [h] at h'
      exact Sum.inr.inj h'
    | next h' =>
      rw [h] at h'
      cases h'
  · rintro rfl
    exact .done h

theorem returns_inl (h : step s = .inl t) : Returns step s r ↔ Returns step t r := by
  constructor
  · intro hr
    cases hr with
    | done h' =>
      rw [h] at h'
      cases h'
    | next h' hr =>
      rw [h] at h'
      cases h'
      exact hr
  · exact .next h

theorem Returns.unique (h : Returns step s r) (h' : Returns step s r') : r = r' := by
  induction h with
  | done h => exact (returns_inr h).mp h'
  | next h _ ih => exact ih ((returns_inl h).mp h')

/-- A loop that stays where it does not end has no end. -/
theorem not_returns_of_stays {P : σ → Prop} (hP : ∀ s, P s → ∃ t, step s = .inl t ∧ P t) (hs : P s) :
    ¬Returns step s r := by
  intro h
  induction h with
  | done he =>
    obtain ⟨t, ht, -⟩ := hP _ hs
    rw [he] at ht
    cases ht
  | next he _ ih =>
    obtain ⟨t, ht, hPt⟩ := hP _ hs
    rw [he] at ht
    cases ht
    exact ih hPt

/-- Two loops in lockstep, except that one may take more steps to the end,
return the same. -/
theorem returns_iff_of_simulation {R : σ → τ → Prop} {t : τ}
    (hR : ∀ s t, R s t → (∃ s' t', step s = .inl s' ∧ step' t = .inl t' ∧ R s' t') ∨
      ∃ r, Returns step s r ∧ Returns step' t r)
    (h : R s t) : Returns step s r ↔ Returns step' t r := by
  constructor
  · intro hs
    induction hs generalizing t with
    | done he =>
      obtain ⟨s', t', hs', -, -⟩ | ⟨r, hr, hr'⟩ := hR _ _ h
      · rw [he] at hs'
        cases hs'
      · cases (returns_inr he).mp hr
        exact hr'
    | next he hs ih =>
      obtain ⟨s', t', hs', ht', h'⟩ | ⟨r, hr, hr'⟩ := hR _ _ h
      · rw [he] at hs'
        cases hs'
        exact .next ht' (ih h')
      · cases ((returns_inl he).mp hr).unique hs
        exact hr'
  · intro ht
    induction ht generalizing s with
    | done he =>
      obtain ⟨s', t', -, ht', -⟩ | ⟨r, hr, hr'⟩ := hR _ _ h
      · rw [he] at ht'
        cases ht'
      · cases (returns_inr he).mp hr'
        exact hr
    | next he ht ih =>
      obtain ⟨s', t', hs', ht', h'⟩ | ⟨r, hr, hr'⟩ := hR _ _ h
      · rw [he] at ht'
        cases ht'
        exact .next hs' (ih h')
      · cases ((returns_inl he).mp hr').unique ht
        exact hr

end Isl.Lib.Loop
