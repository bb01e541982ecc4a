import Isl.Lib.Loop
import Mathlib.Data.Set.Card
import Mathlib.Logic.Relation

/-! Loops that end if and only if they do not come back to where they were. -/

namespace Isl.Lib.Loop

open Relation

variable {σ ρ : Type*} {step : σ → σ ⊕ ρ} {s t : σ} {r : ρ}

/-- The loop goes from one state to the other, in any number of turns. -/
abbrev Leads (step : σ → σ ⊕ ρ) : σ → σ → Prop := ReflTransGen fun s t ↦ step s = .inl t

/-- The same, in at least one turn. -/
abbrev LeadsOn (step : σ → σ ⊕ ρ) : σ → σ → Prop := TransGen fun s t ↦ step s = .inl t

theorem Returns.after (h : Leads step s t) (hr : Returns step s r) : Returns step t r := by
  induction h with
  | refl => exact hr
  | tail _ hs ih => exact (returns_inl hs).mp ih

/-- A loop that ends has an end. -/
theorem Returns.leads_end (h : Returns step s r) : ∃ t, Leads step s t ∧ step t = .inr r := by
  induction h with
  | @done s r hs => exact ⟨s, .refl, hs⟩
  | next hs _ ih =>
    obtain ⟨t, hst, ht⟩ := ih
    exact ⟨t, .head hs hst, ht⟩

theorem Returns.not_leadsOn_self (h : Returns step s r) : ¬LeadsOn step s s := by
  induction h with
  | done hs =>
    intro hc
    obtain ⟨t, ht, -⟩ := TransGen.head'_iff.mp hc
    rw [hs] at ht
    cases ht
  | @next s t r hs _ ih =>
    intro hc
    obtain ⟨u, hu, hus⟩ := TransGen.head'_iff.mp hc
    obtain rfl : u = t := Sum.inl.inj (hu.symm.trans hs)
    exact ih (TransGen.tail' hus hs)

/-- Every turn of the loop makes a measure smaller or ends in one of finitely many states, and
it comes back to none of these: then it ends. -/
theorem exists_returns_of_not_leadsOn {B : Set σ} (hB : B.Finite) (μ : σ → ℕ)
    (hstep : ∀ s t, step s = .inl t → t ∈ B ∨ μ t < μ s)
    (hno : ∀ b ∈ B, Leads step s b → ¬LeadsOn step b b) : ∃ r, Returns step s r := by
  -- the states of `B` that are still ahead, and then the measure
  have hahead (k m : ℕ) (s : σ) (hno : ∀ b ∈ B, Leads step s b → ¬LeadsOn step b b)
      (hk : {b ∈ B | LeadsOn step s b}.ncard < k) (hm : μ s < m) : ∃ r, Returns step s r := by
    induction k generalizing m s with
    | zero => exact absurd hk (Nat.not_lt_zero _)
    | succ k ihk =>
      induction m generalizing s with
      | zero => exact absurd hm (Nat.not_lt_zero _)
      | succ m ihm =>
        cases hs : step s with
        | inr r => exact ⟨r, .done hs⟩
        | inl t =>
          have hsub : {b ∈ B | LeadsOn step t b} ⊆ {b ∈ B | LeadsOn step s b} :=
            fun b hb ↦ ⟨hb.1, .head hs hb.2⟩
          have hno' : ∀ b ∈ B, Leads step t b → ¬LeadsOn step b b :=
            fun b hb htb ↦ hno b hb (.head hs htb)
          have hfin : {b ∈ B | LeadsOn step s b}.Finite := hB.subset fun b hb ↦ hb.1
          rcases hstep s t hs with ht | ht
          · have hnew : t ∉ {b ∈ B | LeadsOn step t b} :=
              fun htt ↦ hno t ht (.single hs) htt.2
            have hold : t ∈ {b ∈ B | LeadsOn step s b} := ⟨ht, .single hs⟩
            have hlt := Set.ncard_lt_ncard ⟨hsub, fun hsup ↦ hnew (hsup hold)⟩ hfin
            obtain ⟨r, hr⟩ := ihk (μ t + 1) t hno' (by omega) (Nat.lt_succ_self _)
            exact ⟨r, .next hs hr⟩
          · have hle := Set.ncard_le_ncard hsub hfin
            obtain ⟨r, hr⟩ := ihm t hno' (by omega) (by omega)
            exact ⟨r, .next hs hr⟩
  exact hahead _ _ s hno (Nat.lt_succ_self _) (Nat.lt_succ_self _)

end Isl.Lib.Loop
