import Isl.Fs.FdLimit

/-! The slot that `f_install` takes, and when it takes one. -/

namespace Isl.Fs.Cloexec

open Isl.Util
open Isl.Fs.OpenFiles (FdId Dword eMfile eNomem)

/-- The first free slot of the search, or else the one after it, if that is in the table
or the table can grow by it. -/
def TakesSlot (table : FdTable) (env : Env) (f : ℕ) : Prop :=
  f < 2 ^ 31 ∧ (∀ g < f, (table.get g).isSome) ∧
    (f < searchEnd table env ∧ table.get f = none ∨
      f = searchEnd table env ∧ (f < table.size ∨ f < env.rlimit.toNat ∧ env.noMemory = false))

/-- A table after a file was put into a slot. -/
structure Filled (table : FdTable) (f : ℕ) (d : FdId) (table' : FdTable) : Prop where
  get : ∀ g, table'.get g = if g = f then some d else table.get g
  size : table'.size = max table.size (f + 1)
  bits : table'.cloexec.length = bitsSize table'.size

variable {table table' : FdTable} {d : FdId} {env : Env} {f g : ℕ}

theorem TakesSlot.unique (h : TakesSlot table env f) (h' : TakesSlot table env g) : f = g := by
  have hle {a b : ℕ} (ha : TakesSlot table env a) (hb : TakesSlot table env b) : b ≤ a := by
    obtain ⟨-, -, ⟨-, hfree⟩ | ⟨hend, -⟩⟩ := ha
    · by_contra hlt
      have htaken := hb.2.1 a (Nat.not_le.mp hlt)
      rw [hfree] at htaken
      cases htaken
    · obtain ⟨-, -, ⟨hlt, -⟩ | ⟨heq, -⟩⟩ := hb
      · exact hend ▸ hlt.le
      · exact (heq.trans hend.symm).le
  exact Nat.le_antisymm (hle h' h) (hle h h')

/-- The slot depends on which slots are taken, and on how many there are. -/
theorem takesSlot_congr (hget : ∀ g, (table'.get g).isSome = (table.get g).isSome)
    (hsize : table'.size = table.size) : TakesSlot table' env f ↔ TakesSlot table env f := by
  have hnone : table'.get f = none ↔ table.get f = none := by
    rw [← Option.not_isSome_iff_eq_none, ← Option.not_isSome_iff_eq_none, hget]
  rw [TakesSlot, TakesSlot, searchEnd, searchEnd, hsize, hnone]
  simp only [hget]

/-- The table after a file was stored. -/
theorem filled_of_slot (hx : table.Extends table')
    (hslot : table.freeSlot 0 (searchEnd table env) = some (BitVec.ofNat 32 f))
    (hexp : (if searchEnd table env ≤ f then table.fdtableExpand (BitVec.ofNat 32 f) env
      else some (table, 0)) = some (table', 0)) (hsize : table'.size = max table.size (f + 1))
    (hpos : f < 2 ^ 31) (d : FdId) :
    ∃ table₂ : FdTable, table.fInstall d env = some (table₂, (f : ℤ)) ∧ Filled table f d table₂ := by
  obtain ⟨table₂, hinstall, hself, hother, hsize₂, hbits⟩ :=
    stores_of_slot hx.bits hslot hexp (by omega) hpos d
  refine ⟨table₂, hinstall, fun g ↦ ?_, hsize₂.trans hsize, hbits⟩
  split
  · rename_i hg
    rw [hg, hself]
  · rename_i hg
    rw [hother g hg, hx.get]

/-- `f_install` takes a slot, or it fails and leaves the slots as they were. -/
theorem fInstall_cases (hbits : table.cloexec.length = bitsSize table.size) (d : FdId) (env : Env) :
    (∃ f table', TakesSlot table env f ∧ table.fInstall d env = some (table', (f : ℤ)) ∧
      Filled table f d table') ∨
    (∀ f, ¬TakesSlot table env f) ∧
      ∀ r, table.fInstall d env = some r → r.2 < 0 ∧ table.Extends r.1 := by
  have hend : searchEnd table env ≤ table.size := min_le_right _ _
  obtain ⟨f, hslot, hpos, hlt, -, hfree, htaken⟩ | ⟨htaken, ⟨hnone, hlarge⟩ | ⟨hslot, hle⟩⟩ :=
    freeSlot_cases table 0 (searchEnd table env)
  · obtain ⟨table₂, hinstall, hfilled⟩ := filled_of_slot (.refl hbits) hslot
      (if_neg (Nat.not_le_of_lt hlt)) (Nat.max_eq_left (by omega)).symm hpos d
    exact .inl ⟨f, table₂, ⟨hpos, fun g hg ↦ htaken g (Nat.zero_le g) hg, .inl ⟨hlt, hfree⟩⟩, hinstall,
      hfilled⟩
  · refine .inr ⟨fun f hf ↦ ?_, fun r hr ↦ ?_⟩
    · obtain ⟨hpos, -, ⟨hlt, hfree⟩ | ⟨heq, -⟩⟩ := hf
      · have hopen := htaken f (Nat.zero_le f) hlt hpos
        rw [hfree] at hopen
        cases hopen
      · omega
    · unfold searchEnd at hnone
      rw [FdTable.fInstall, FdTable.fInstallStart] at hr
      dsimp only at hr
      rw [hnone] at hr
      cases hr
  · have hzero : max (0 : Dword).toNat (searchEnd table env) = searchEnd table env :=
      Nat.max_eq_right (Nat.zero_le _)
    have hle : searchEnd table env ≤ 2 ^ 31 := hle.elim (fun h ↦ h.trans (Nat.zero_le _)) id
    rw [hzero] at hslot
    have hbefore (g : ℕ) (hg : g < searchEnd table env) : (table.get g).isSome :=
      htaken g (Nat.zero_le g) hg (by omega)
    have hexp {table' : FdTable} {err : ℤ} (h : table.fdtableExpand
        (BitVec.ofNat 32 (searchEnd table env)) env = some (table', err)) :
        (if searchEnd table env ≤ searchEnd table env
          then table.fdtableExpand (BitVec.ofNat 32 (searchEnd table env)) env
          else some (table, 0)) = some (table', err) := (if_pos le_rfl).trans h
    have honly (f : ℕ) (hf : TakesSlot table env f) : searchEnd table env < 2 ^ 31 ∧
        (searchEnd table env < table.size ∨
          searchEnd table env < env.rlimit.toNat ∧ env.noMemory = false) := by
      obtain ⟨hpos, -, ⟨hlt, hfree⟩ | ⟨heq, hroom⟩⟩ := hf
      · have hopen := hbefore f hlt
        rw [hfree] at hopen
        cases hopen
      · exact ⟨heq ▸ hpos, heq ▸ hroom⟩
    have hfails {table' : FdTable} {err : ℤ} (h : table.fdtableExpand
        (BitVec.ofNat 32 (searchEnd table env)) env = some (table', err)) (hx : table.Extends table')
        (herr : err < 0 ∨ 2 ^ 31 ≤ searchEnd table env) (r : FdTable × ℤ)
        (hr : table.fInstall d env = some r) : r.2 < 0 ∧ table.Extends r.1 := by
      obtain ⟨ret, hinstall, hneg⟩ := fails_of_slot hslot (by omega) (hexp h) herr d
      rw [FdTable.fInstall, hinstall] at hr
      cases hr
      exact ⟨hneg, hx⟩
    obtain ⟨table', err, h, hx, hroom⟩ := fdtableExpand_cases hbits hle env
    by_cases hpos : searchEnd table env < 2 ^ 31
    · obtain ⟨rfl, hsize, hroom⟩ | ⟨herr, hnot⟩ := hroom
      · obtain ⟨table₂, hinstall, hfilled⟩ := filled_of_slot hx hslot (hexp h) hsize hpos d
        exact .inl ⟨_, table₂, ⟨hpos, hbefore, .inr ⟨rfl, hroom⟩⟩, hinstall, hfilled⟩
      · exact .inr ⟨fun f hf ↦ hnot (honly f hf).2, hfails h hx (.inl herr)⟩
    · exact .inr ⟨fun f hf ↦ hpos (honly f hf).1, hfails h hx (.inr (Nat.not_lt.mp hpos))⟩

end Isl.Fs.Cloexec
