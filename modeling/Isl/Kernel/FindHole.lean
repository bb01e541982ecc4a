import Isl.Kernel.MmapHint
import Mathlib.Order.Bounds.Basic

/-!
The hole that `pt_find_hole` returns is the highest one.
-/

namespace Isl.Kernel.Mmap

open Isl.Emu Isl.Emu.Memory

variable {w : World} {m size a e : ℕ} {hole : Option ℕ}

/-- `BAD_PAGE`, a page below those that are looked at. -/
def badPage : ℕ := 0x10000

/-- The page number that `pt_find_hole` returns. -/
def foundPage (w : World) (m size : ℕ) : ℕ := (findHole w m size).getD badPage

/-- The first pages of the unmapped ranges of a size from `a` up to `e`. -/
def holesIn (w : World) (m size a e : ℕ) : Set ℕ :=
  {p | a ≤ p ∧ p + size ≤ e ∧ ∀ q, p ≤ q → q < p + size → w.memPt m q = none}

/-- The greatest element of a set that can be empty. -/
def IsTop (s : Set ℕ) (top : Option ℕ) : Prop :=
  (top = none → s = ∅) ∧ ∀ p, top = some p → IsGreatest s p

/-- A range up to `e` ends below a mapped page, when those above are too few. -/
theorem holesIn_below {page : ℕ} (hshort : e - (page + 1) < size)
    (hmapped : (w.memPt m page).isSome) (hle : page ≤ e) :
    holesIn w m size a e = holesIn w m size a page := by
  ext p
  refine and_congr_right fun _ ↦ and_congr_left fun hfree ↦ ⟨fun h ↦ ?_, fun h ↦ h.trans hle⟩
  by_contra hover
  have hpage : w.memPt m page = none := hfree page (by omega) (by omega)
  rw [hpage] at hmapped
  cases hmapped

/-- The scan from `a + n` downwards, in a hole that ends at `e`. -/
theorem isTop_findHoleIn (n : ℕ) (he : hole.getD (a + n) = e)
    (hfree : ∀ q, a + n ≤ q → q < e → w.memPt m q = none) (hle : a + n ≤ e)
    (hshort : e - (a + n) < size) :
    IsTop (holesIn w m size a e) (findHoleIn w m size (List.range' a n).reverse hole) := by
  induction n generalizing hole e with
  | zero =>
    refine ⟨fun _ ↦ Set.eq_empty_of_forall_notMem fun p hp ↦ ?_, fun p hp ↦ ?_⟩
    · have hlow := hp.1
      have hhigh := hp.2.1
      omega
    · cases hp
  | succ n ih =>
    rw [List.range'_1_concat, List.reverse_concat, findHoleIn]
    cases hpage : w.memPt m (a + n) with
    | some entry =>
      have hmapped : (w.memPt m (a + n)).isSome := by rw [hpage, Option.isSome_some]
      rw [Option.isSome_some, if_pos rfl, holesIn_below (by omega) hmapped (by omega)]
      exact ih rfl (fun q hge hlt ↦ absurd hlt (Nat.not_lt_of_le hge)) le_rfl (by omega)
    | none =>
      have hfree : ∀ q, a + n ≤ q → q < e → w.memPt m q = none := by
        intro q hge hlt
        obtain rfl | hgt := hge.eq_or_lt
        · exact hpage
        · exact hfree q hgt hlt
      rw [Option.isSome_none, if_neg Bool.false_ne_true]
      dsimp only
      rw [Nat.add_assoc, he]
      split
      · -- the hole has its size for the first time
        refine ⟨fun hnone ↦ absurd hnone (Option.some_ne_none _), fun p hp ↦ ?_⟩
        cases hp
        refine ⟨⟨Nat.le_add_right a n, by omega, fun q hge hlt ↦ hfree q hge (by omega)⟩, ?_⟩
        intro p hp
        have hhigh := hp.2.1
        omega
      · exact ih rfl hfree (by omega) (by omega)

theorem isTop_findHoleIn_none {n : ℕ} (hend : a + n = e) (hsize : 1 ≤ size) :
    IsTop (holesIn w m size a e) (findHoleIn w m size (List.range' a n).reverse none) := by
  subst hend
  exact isTop_findHoleIn n rfl (fun q hge hlt ↦ absurd hlt (Nat.not_lt_of_le hge)) le_rfl
    (by rwa [Nat.sub_self])

theorem isTop_findHole (hsize : 1 ≤ size) :
    IsTop (holesIn w m size 0x40001 0xf7ffe) (findHole w m size) := by
  have hend : 0x40001 + (0xf7ffd - 0x40000) = 0xf7ffe := by decide
  unfold findHole holePages
  exact isTop_findHoleIn_none hend hsize

/-- Soundness, maximality and completeness of the search. -/
theorem foundPage_spec (w : World) (m size : ℕ) (hsize : 1 ≤ size) :
    (foundPage w m size ≠ badPage →
      IsGreatest {p | 0x40000 < p ∧ p + size ≤ 0xf7ffe ∧
        ∀ q, p ≤ q → q < p + size → w.memPt m q = none} (foundPage w m size)) ∧
    (foundPage w m size = badPage ↔
      ∀ p, 0x40000 < p → p + size ≤ 0xf7ffe →
        ∃ q, p ≤ q ∧ q < p + size ∧ (w.memPt m q).isSome) := by
  have htop := @isTop_findHole w m size hsize
  unfold foundPage
  cases h : findHole w m size with
  | none =>
    refine ⟨fun hne ↦ absurd rfl hne, iff_of_true rfl fun p hlow hhigh ↦ ?_⟩
    by_contra hnone
    refine Set.eq_empty_iff_forall_notMem.mp (htop.1 h) p ⟨hlow, hhigh, fun q hge hlt ↦ ?_⟩
    by_contra hq
    exact hnone ⟨q, hge, hlt, Option.isSome_iff_ne_none.mpr hq⟩
  | some p =>
    have hgreatest := htop.2 p h
    obtain ⟨hlow, hhigh, hfree⟩ := hgreatest.1
    refine ⟨fun _ ↦ hgreatest, iff_of_false (fun hbad ↦ ?_) fun hall ↦ ?_⟩
    · have hbad : p = 0x10000 := hbad
      omega
    · obtain ⟨q, hge, hlt, hmapped⟩ := hall p hlow hhigh
      rw [hfree q hge hlt] at hmapped
      cases hmapped

theorem foundPage_ne_badPage {p : ℕ} (hsize : 1 ≤ size) (hlow : 0x40000 < p) (hhigh : p + size ≤ 0xf7ffe)
    (hfree : ∀ q, p ≤ q → q < p + size → w.memPt m q = none) : foundPage w m size ≠ badPage := by
  intro hbad
  obtain ⟨q, hge, hlt, hmapped⟩ := (foundPage_spec w m size hsize).2.mp hbad p hlow hhigh
  rw [hfree q hge hlt] at hmapped
  cases hmapped

theorem foundPage_empty : foundPage World.init 0 3 = 0xf7ffb := by
  have hfree : ∀ q, World.init.memPt 0 q = none := fun _ ↦ rfl
  have hne : foundPage World.init 0 3 ≠ badPage :=
    foundPage_ne_badPage (p := 0xf7ffb) (by decide) (by decide) (by decide) fun q _ _ ↦ hfree q
  refine ((foundPage_spec World.init 0 3 (by decide)).1 hne).unique ⟨⟨by decide, by decide, fun q _ _ ↦ hfree q⟩, fun p hp ↦ ?_⟩
  have hhigh := hp.2.1
  omega

end Isl.Kernel.Mmap
