import Mathlib.Data.Nat.Notation

/-!
Scans: how many of a number of places are visited by a loop that stops at the first place of
a kind, and how that is found place by place.
-/

namespace Isl.Lib.Scan

variable {stop : ℕ → Prop} {c n : ℕ}

/-- Of `c` places `n` are visited, the last of them with the stop unless there is none. -/
structure Visits (stop : ℕ → Prop) (c n : ℕ) : Prop where
  le : n ≤ c
  goes : ∀ k, k + 1 < n → ¬stop k
  ends : n = c ∨ 0 < n ∧ stop (n - 1)

theorem Visits.zero (h : Visits stop 0 n) : n = 0 := Nat.le_zero.mp h.le

/-- The scan stops at the first place, or the rest of it is a scan of the others. -/
theorem Visits.succ (h : Visits stop (c + 1) n) :
    stop 0 ∧ n = 1 ∨ ¬stop 0 ∧ ∃ n', n = n' + 1 ∧ Visits (fun k ↦ stop (k + 1)) c n' := by
  obtain ⟨n', rfl⟩ : ∃ n', n = n' + 1 := by
    rcases h.ends with hn | ⟨hn, -⟩
    · exact ⟨c, hn⟩
    · exact ⟨n - 1, by omega⟩
  by_cases hstop : stop 0
  · refine .inl ⟨hstop, ?_⟩
    have hle : ¬0 + 1 < n' + 1 := fun hlt ↦ h.goes 0 hlt hstop
    omega
  · refine .inr ⟨hstop, n', rfl, ?_, fun k hk ↦ h.goes (k + 1) (Nat.succ_lt_succ hk), ?_⟩
    · exact Nat.le_of_succ_le_succ h.le
    · rcases h.ends with hn | ⟨-, hlast⟩
      · exact .inl (Nat.succ.inj hn)
      · cases n' with
        | zero => exact absurd hlast hstop
        | succ k => exact .inr ⟨Nat.succ_pos k, hlast⟩

end Isl.Lib.Scan
