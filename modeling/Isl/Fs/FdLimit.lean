import Isl.Fs.Cloexec
import Mathlib.Order.Bounds.Basic

/-!
The slot that `f_install_start` takes under every limit of descriptors, also one
that was lowered below the size of the table.
-/

namespace Isl.Fs.Cloexec

open Isl.Lib Isl.Util
open Isl.Fs.OpenFiles (Fd FdId Dword eMfile eNomem)

/-- `f_install_start` with the references to files. -/
def fInstallStart (fds : Pool Fd) (table : FdTable) (d : FdId) (start : Dword) (env : Env) :
    Option (Pool Fd × FdTable × ℤ) := do
  let (table, f) ← table.fInstallStart d start env
  if f < 0 then
    let fds ← fds.release d
    some (fds, table, f)
  else some (fds, table, f)

/-- The slots from `start` on that a file may be put into. -/
def freeBelowLimit (table : FdTable) (start : Dword) (env : Env) : Set ℕ :=
  {f | start.toNat ≤ f ∧ table.get f = none ∧ f < env.rlimit.toNat}

/-- The file is in the first free slot, or its reference is dropped. The other
slots are as they were. -/
def InstallsOrDrops (fds : Pool Fd) (table : FdTable) (d : FdId) (start : Dword) (env : Env) :
    Prop :=
  ∃ fds' table' ret, fInstallStart fds table d start env = some (fds', table', ret) ∧
    ((∃ f : ℕ, ret = f ∧ IsLeast (freeBelowLimit table start env) f ∧ table'.get f = some d ∧
        (∀ g, g ≠ f → table'.get g = table.get g) ∧ fds' = fds) ∨
      ret < 0 ∧ (∀ g, table'.get g = table.get g) ∧ Pool.Retained d fds' fds)

/-- Where the search stops: the limit is cut to 32 bits for it. -/
def searchEnd (table : FdTable) (env : Env) : ℕ := min (env.rlimit.setWidth 32).toNat table.size

/-- A slot of the search is free, or the slot after the search is a new one or
a free one below the limit. -/
def SearchFits (table : FdTable) (start : Dword) (env : Env) : Prop :=
  (∃ f, start.toNat ≤ f ∧ f < searchEnd table env ∧ f < 2 ^ 31 ∧ table.get f = none) ∨
  searchEnd table env ≤ 2 ^ 31 ∧
    (table.size ≤ max start.toNat (searchEnd table env) ∨
      max start.toNat (searchEnd table env) = 2 ^ 31 ∨
      max start.toNat (searchEnd table env) < env.rlimit.toNat ∧
        table.get (max start.toNat (searchEnd table env)) = none)

variable {fds : Pool Fd} {table table' : FdTable} {d : FdId} {start : Dword} {env : Env} {f n : ℕ}
  {ret : ℤ}

/-! The parts of the function. -/

theorem toInt_ofNat (h : f < 2 ^ 31) : (BitVec.ofNat 32 f).toInt = f := by
  rw [BitVec.toInt_eq_toNat_cond, BitVec.toNat_ofNat]
  omega

/-- A file is put into a slot of the table. -/
theorem store_clear (hbits : table.cloexec.length = bitsSize table.size) (hf : f < table.size)
    (hpos : f < 2 ^ 31) (d : FdId) :
    ∃ table₁ table₂ : FdTable, table.store (BitVec.ofNat 32 f) d = some table₁ ∧
      table₁.clearCloexec (BitVec.ofNat 32 f).toNat = some table₂ ∧
      table₂.get f = some d ∧ ∀ g, g ≠ f → table₂.get g = table.get g := by
  have hnat := FdTable.toNat_ofNat_of_lt hpos
  have hput : table.put (BitVec.ofNat 32 f) (some d) =
      some { table with files := table.files.set f (some d) } := by
    rw [FdTable.put, toInt_ofNat hpos, hnat, if_pos ⟨by omega, hf⟩]
  have hlen : f < 8 * table.cloexec.length := by
    rw [hbits, bitsSize]
    omega
  obtain ⟨cloexec, hclear⟩ : ∃ cloexec, bitClear f table.cloexec = some cloexec := by
    have hbyte : f >>> 3 < table.cloexec.length := by
      rw [shiftRight_three]
      omega
    rw [bitClear, List.getElem?_eq_getElem hbyte]
    exact ⟨_, rfl⟩
  have hget := FdTable.get_set table (some d) hf
  refine ⟨⟨table.files.set f (some d), table.cloexec, .opened f :: table.log⟩,
    ⟨table.files.set f (some d), cloexec, .opened f :: table.log⟩, ?_, ?_,
    (hget f).trans (if_pos rfl), fun g hg ↦ (hget g).trans (if_neg hg)⟩
  · rw [FdTable.store, hput, hnat, Option.map_some]
  · rw [FdTable.clearCloexec, hnat, hclear, Option.map_some]

theorem exists_fdtableResize (hbits : table.cloexec.length = bitsSize table.size)
    (hn : table.size < n) : ∃ table' err, table.fdtableResize n env = some (table', err) := by
  rw [FdTable.fdtableResize, guard, if_pos hn]
  change ∃ table' err, (if env.noMemory then _ else _) = some (table', err)
  cases env.noMemory with
  | true => exact ⟨_, _, if_pos rfl⟩
  | false =>
    rw [if_neg Bool.false_ne_true, FdTable.memcpy_files hn.le]
    have hle : bitsSize table.size ≤ bitsSize n := by
      unfold bitsSize
      omega
    have hlen : bitsSize table.size ≤ (List.replicate (bitsSize n) 0#8).length := by
      rwa [List.length_replicate]
    dsimp only [Option.bind_eq_bind, Option.bind_some]
    by_cases hnull : table.cloexec = []
    · rw [if_pos hnull]
      exact ⟨_, _, rfl⟩
    · rw [if_neg hnull, memcpy, if_pos ⟨hlen, hbits.ge⟩]
      exact ⟨_, _, rfl⟩

/-- What an expansion by one slot returns. -/
theorem fdtableExpand_cases (hbits : table.cloexec.length = bitsSize table.size) (hf : f ≤ 2 ^ 31)
    (env : Env) : ∃ table' err, table.fdtableExpand (BitVec.ofNat 32 f) env = some (table', err) ∧
      table.Extends table' ∧
      (err = 0 ∧ table'.size = max table.size (f + 1) ∧
          (f < table.size ∨ f < env.rlimit.toNat ∧ env.noMemory = false) ∨
        err < 0 ∧ ¬(f < table.size ∨ f < env.rlimit.toNat ∧ env.noMemory = false)) := by
  have hsize : (BitVec.ofNat 32 f + 1).toNat = f + 1 := by
    rw [BitVec.toNat_add, BitVec.toNat_ofNat]
    change (f % 2 ^ 32 + 1) % 2 ^ 32 = f + 1
    omega
  rw [FdTable.fdtableExpand, hsize]
  by_cases hin : f + 1 ≤ table.size
  · rw [if_pos hin]
    exact ⟨table, 0, rfl, .refl hbits, .inl ⟨rfl, (Nat.max_eq_left hin).symm, .inl hin⟩⟩
  rw [if_neg hin]
  by_cases hlimit : env.rlimit.toNat < f + 1
  · rw [if_pos hlimit]
    refine ⟨table, eMfile, rfl, .refl hbits, .inr ⟨by decide, ?_⟩⟩
    rintro (h | ⟨h, -⟩) <;> omega
  rw [if_neg hlimit]
  obtain ⟨table', err, hresize⟩ := @exists_fdtableResize table env (f + 1) hbits (by omega)
  have herr : err = if env.noMemory then eNomem else 0 := by
    obtain ⟨-, -, h⟩ := Option.bind_eq_some_iff.mp hresize
    split at h
    · rename_i hmemory
      cases h
      exact (if_pos hmemory).symm
    · rename_i hmemory
      obtain ⟨files, -, h⟩ := Option.bind_eq_some_iff.mp h
      obtain ⟨cloexec, -, h⟩ := Option.bind_eq_some_iff.mp h
      cases h
      exact (if_neg hmemory).symm
  obtain ⟨hret, htable⟩ | ⟨hret, hsize', hx⟩ := FdTable.fdtableResize_extends hresize (.inr hbits)
  · rw [hret, htable] at hresize
    refine ⟨table, eNomem, hresize, .refl hbits, .inr ⟨by decide, ?_⟩⟩
    rintro (h | ⟨-, h⟩)
    · exact hin h
    · rw [h, hret] at herr
      exact absurd herr (by decide)
  · rw [hret] at hresize herr
    refine ⟨table', 0, hresize, hx, .inl ⟨rfl, by omega, .inr ⟨by omega, ?_⟩⟩⟩
    cases hmemory : env.noMemory with
    | true =>
      rw [hmemory] at herr
      exact absurd herr (by decide)
    | false => rfl

theorem fdtableExpand_spec (hbits : table.cloexec.length = bitsSize table.size) (hf : f ≤ 2 ^ 31) :
    ∃ table' err, table.fdtableExpand (BitVec.ofNat 32 f) env = some (table', err) ∧
      table.Extends table' ∧ (f < table.size → err = 0) ∧
      (err < 0 ∨ err = 0 ∧ f < table'.size ∧ (f < table.size ∨ f < env.rlimit.toNat)) := by
  obtain ⟨table', err, h, hx, ⟨rfl, hsize, hroom⟩ | ⟨herr, hnot⟩⟩ := fdtableExpand_cases hbits hf env
  · exact ⟨table', 0, h, hx, fun _ ↦ rfl, .inr ⟨rfl, by omega, hroom.imp_right And.left⟩⟩
  · exact ⟨table', err, h, hx, fun hlt ↦ absurd (.inl hlt) hnot, .inl herr⟩

/-- The search finds the first free slot, reads a slot with a negative number,
or ends after the last slot. -/
theorem freeSlot_cases (table : FdTable) (start : Dword) (n : ℕ) :
    (∃ f, table.freeSlot start n = some (BitVec.ofNat 32 f) ∧ f < 2 ^ 31 ∧ f < n ∧
      start.toNat ≤ f ∧ table.get f = none ∧
      ∀ g, start.toNat ≤ g → g < f → (table.get g).isSome) ∨
    (∀ g, start.toNat ≤ g → g < n → g < 2 ^ 31 → (table.get g).isSome) ∧
      (table.freeSlot start n = none ∧ 2 ^ 31 < n ∨
        table.freeSlot start n = some (BitVec.ofNat 32 (max start.toNat n)) ∧
          (n ≤ start.toNat ∨ n ≤ 2 ^ 31)) := by
  unfold FdTable.freeSlot
  dsimp only
  cases hfind : (List.range' start.toNat (n - start.toNat)).find? fun f ↦
      (table.get f).isNone || 2 ^ 31 ≤ f with
  | none =>
    have hall (g : ℕ) (hge : start.toNat ≤ g) (hlt : g < n) :
        (table.get g).isSome ∧ g < 2 ^ 31 := by
      have hg := List.find?_range'_eq_none.mp hfind g hge (by omega)
      simpa [Option.isSome_iff_ne_none] using hg
    refine .inr ⟨fun g hge hlt _ ↦ (hall g hge hlt).1, .inr ⟨rfl, ?_⟩⟩
    by_contra hn
    have hlast := (hall (n - 1) (by omega) (by omega)).2
    omega
  | some f =>
    obtain ⟨hstop, hmem, hbefore⟩ := List.find?_range'_eq_some.mp hfind
    obtain ⟨hge, hlt⟩ := List.mem_range'_1.mp hmem
    have hall (g : ℕ) (hg : start.toNat ≤ g) (hlt : g < f) : (table.get g).isSome ∧ g < 2 ^ 31 := by
      simpa [Option.isSome_iff_ne_none] using hbefore g hg hlt
    dsimp only
    by_cases hpos : f < 2 ^ 31
    · have hnone : table.get f = none ∨ 2 ^ 31 ≤ f := by simpa using hstop
      have hnone := hnone.resolve_right (Nat.not_le_of_lt hpos)
      rw [if_pos hpos]
      exact .inl ⟨f, rfl, hpos, by omega, hge, hnone, fun g hg hlt ↦ (hall g hg hlt).1⟩
    · -- the slots before a negative number are taken
      rw [if_neg hpos]
      refine .inr ⟨fun g hg _ hlt ↦ (hall g hg (by omega)).1, .inl ⟨rfl, by omega⟩⟩

/-- What follows the search. -/
theorem fInstallStart_of_slot {err : ℤ}
    (hslot : table.freeSlot start (searchEnd table env) = some (BitVec.ofNat 32 f))
    (hf : f < 2 ^ 32)
    (hexp : (if searchEnd table env ≤ f then table.fdtableExpand (BitVec.ofNat 32 f) env
      else some (table, 0)) = some (table', err)) :
    table.fInstallStart d start env =
      let ret := if err < 0 then err else (BitVec.ofNat 32 f).toInt
      if 0 ≤ ret then do
        let table ← table'.store (BitVec.ofNat 32 f) d
        let table ← table.clearCloexec (BitVec.ofNat 32 f).toNat
        some (table, ret)
      else some (table', ret) := by
  have hnat : (BitVec.ofNat 32 f).toNat = f := by
    rw [BitVec.toNat_ofNat]
    exact Nat.mod_eq_of_lt hf
  rw [FdTable.fInstallStart]
  unfold searchEnd at hslot hexp
  dsimp only
  rw [hslot, Option.bind_eq_bind, Option.bind_some, hnat, hexp]
  rfl

/-- A file is stored into a slot of the table. -/
theorem stores_of_slot (hbits : table'.cloexec.length = bitsSize table'.size)
    (hslot : table.freeSlot start (searchEnd table env) = some (BitVec.ofNat 32 f))
    (hexp : (if searchEnd table env ≤ f then table.fdtableExpand (BitVec.ofNat 32 f) env
      else some (table, 0)) = some (table', 0)) (hf : f < table'.size) (hpos : f < 2 ^ 31) (d : FdId) :
    ∃ table₂ : FdTable, table.fInstallStart d start env = some (table₂, (f : ℤ)) ∧
      table₂.get f = some d ∧ (∀ g, g ≠ f → table₂.get g = table'.get g) ∧
      table₂.size = table'.size ∧ table₂.cloexec.length = bitsSize table₂.size := by
  obtain ⟨table₁, table₂, hstore, hclear, hself, hother⟩ := store_clear hbits hf hpos d
  obtain ⟨hfiles, -, hlen, -⟩ := FdTable.clearCloexec_eq_some hclear
  obtain ⟨table₀, hput, htable₁⟩ := Option.map_eq_some_iff.mp hstore
  obtain ⟨-, htable₀⟩ := FdTable.put_eq_some hput
  have hsize : table₂.size = table'.size := by
    rw [FdTable.size, hfiles, ← htable₁, htable₀, FdTable.size, List.length_set]
  refine ⟨table₂, ?_, hself, hother, hsize, ?_⟩
  · have hnonneg : (0 : ℤ) ≤ f := Int.natCast_nonneg f
    rw [fInstallStart_of_slot hslot (by omega) hexp, if_neg (Int.lt_irrefl 0), toInt_ofNat hpos]
    dsimp only
    rw [if_pos hnonneg, hstore]
    dsimp only [Option.bind_eq_bind, Option.bind_some]
    rw [hclear]
    rfl
  · rw [hlen, ← htable₁, htable₀, hsize]
    exact hbits

/-- A slot that there is no room for, or whose number is negative. -/
theorem fails_of_slot {err : ℤ}
    (hslot : table.freeSlot start (searchEnd table env) = some (BitVec.ofNat 32 f))
    (hf : f < 2 ^ 32)
    (hexp : (if searchEnd table env ≤ f then table.fdtableExpand (BitVec.ofNat 32 f) env
      else some (table, 0)) = some (table', err)) (herr : err < 0 ∨ 2 ^ 31 ≤ f) (d : FdId) :
    ∃ ret, table.fInstallStart d start env = some (table', ret) ∧ ret < 0 := by
  have hneg : (if err < 0 then err else (BitVec.ofNat 32 f).toInt) < 0 := by
    split
    · assumption
    · rename_i hpos
      have hf₂ := herr.resolve_left hpos
      rw [BitVec.toInt_eq_toNat_cond, BitVec.toNat_ofNat, Nat.mod_eq_of_lt hf]
      omega
  refine ⟨_, ?_, hneg⟩
  rw [fInstallStart_of_slot hslot hf hexp]
  dsimp only
  rw [if_neg (Int.not_le.mpr hneg)]

theorem fInstallStart_stores (hbits : table'.cloexec.length = bitsSize table'.size)
    (hslot : table.freeSlot start (searchEnd table env) = some (BitVec.ofNat 32 f))
    (hexp : (if searchEnd table env ≤ f then table.fdtableExpand (BitVec.ofNat 32 f) env
      else some (table, 0)) = some (table', 0)) (hf : f < table'.size) (hpos : f < 2 ^ 31) :
    ∃ table₂ : FdTable, fInstallStart fds table d start env = some (fds, table₂, (f : ℤ)) ∧
      table₂.get f = some d ∧ ∀ g, g ≠ f → table₂.get g = table'.get g := by
  obtain ⟨table₂, hinstall, hself, hother, -⟩ := stores_of_slot hbits hslot hexp hf hpos d
  refine ⟨table₂, ?_, hself, hother⟩
  rw [fInstallStart, hinstall]
  dsimp only [Option.bind_eq_bind, Option.bind_some]
  rw [if_neg (Int.not_lt.mpr (Int.natCast_nonneg f))]

theorem fInstallStart_drops {err : ℤ} (hd : fds.live d)
    (hslot : table.freeSlot start (searchEnd table env) = some (BitVec.ofNat 32 f))
    (hf : f < 2 ^ 32)
    (hexp : (if searchEnd table env ≤ f then table.fdtableExpand (BitVec.ofNat 32 f) env
      else some (table, 0)) = some (table', err)) (herr : err < 0 ∨ 2 ^ 31 ≤ f) :
    ∃ fds' ret, fInstallStart fds table d start env = some (fds', table', ret) ∧ ret < 0 ∧
      Pool.Retained d fds' fds := by
  obtain ⟨fds', hrelease, hretained⟩ := Pool.release_of_live hd
  obtain ⟨ret, hinstall, hneg⟩ := fails_of_slot hslot hf hexp herr d
  refine ⟨fds', ret, ?_, hneg, hretained⟩
  rw [fInstallStart, hinstall]
  dsimp only [Option.bind_eq_bind, Option.bind_some]
  rw [if_pos hneg, hrelease, Option.bind_some]

/-- A file that is stored after slots that are taken. -/
theorem installsOrDrops_of_stored (hfrom : start.toNat ≤ f)
    (htaken : ∀ g, start.toNat ≤ g → g < f → (table.get g).isSome)
    (h : ∃ table₂ : FdTable, fInstallStart fds table d start env = some (fds, table₂, (f : ℤ)) ∧
      table₂.get f = some d ∧ ∀ g, g ≠ f → table₂.get g = table.get g) :
    InstallsOrDrops fds table d start env ↔ f < env.rlimit.toNat ∧ table.get f = none := by
  obtain ⟨table₂, hinstall, hget, hother⟩ := h
  constructor
  · rintro ⟨fds', table', ret, hinstall', ⟨f', rfl, hleast, -⟩ | ⟨hneg, -⟩⟩
    · rw [hinstall] at hinstall'
      cases hinstall'
      exact ⟨hleast.1.2.2, hleast.1.2.1⟩
    · rw [hinstall] at hinstall'
      cases hinstall'
      exact absurd hneg (Int.not_lt.mpr (Int.natCast_nonneg f))
  · rintro ⟨hlimit, hfree⟩
    refine ⟨fds, table₂, f, hinstall, .inl ⟨f, rfl, ⟨⟨hfrom, hfree, hlimit⟩, ?_⟩, hget, hother, rfl⟩⟩
    rintro g ⟨hge, hnone, -⟩
    by_contra hlt
    have hopen := htaken g hge (Nat.lt_of_not_le hlt)
    rw [hnone] at hopen
    cases hopen

/-- The exact condition: the slot after the search is only a wrong one where it
is taken or at the limit. -/
theorem installsOrDrops_iff (hbits : table.cloexec.length = bitsSize table.size) (hd : fds.live d)
    (hstart : 0 ≤ start.toInt) :
    InstallsOrDrops fds table d start env ↔ SearchFits table start env := by
  have hstart : start.toNat < 2 ^ 31 := by
    rw [BitVec.toInt_eq_toNat_cond] at hstart
    omega
  have hsize : searchEnd table env ≤ table.size := min_le_right _ _
  have hlimit : searchEnd table env ≤ env.rlimit.toNat := by
    refine (min_le_left _ _).trans ?_
    rw [BitVec.toNat_setWidth]
    exact Nat.mod_le _ _
  unfold SearchFits
  obtain ⟨f, hslot, hpos, hlt, hge, hfree, htaken⟩ | ⟨htaken, ⟨hnone, hlarge⟩ | ⟨hslot, hle⟩⟩ :=
    freeSlot_cases table start (searchEnd table env)
  · refine iff_of_true ?_ (.inl ⟨f, hge, hlt, hpos, hfree⟩)
    refine (installsOrDrops_of_stored hge htaken ?_).mpr ⟨hlt.trans_le hlimit, hfree⟩
    exact fInstallStart_stores hbits hslot (if_neg (Nat.not_le_of_lt hlt)) (hlt.trans_le hsize) hpos
  · refine iff_of_false ?_ ?_
    · rintro ⟨fds', table', ret, hinstall, -⟩
      unfold searchEnd at hnone
      rw [fInstallStart, FdTable.fInstallStart] at hinstall
      dsimp only at hinstall
      rw [hnone] at hinstall
      cases hinstall
    · rintro (⟨f, hge, hlt, hpos, hfree⟩ | ⟨hle, -⟩)
      · have hopen := htaken f hge hlt hpos
        rw [hfree] at hopen
        cases hopen
      · exact absurd hlarge (Nat.not_lt_of_le hle)
  · -- no free slot below the limit in the table
    generalize hmax : max start.toNat (searchEnd table env) = f at hslot ⊢
    have hf : f ≤ 2 ^ 31 := by omega
    have hnot : ¬∃ f, start.toNat ≤ f ∧ f < searchEnd table env ∧ f < 2 ^ 31 ∧
        table.get f = none := by
      rintro ⟨g, hge, hlt, hpos, hfree⟩
      have hopen := htaken g hge hlt hpos
      rw [hfree] at hopen
      cases hopen
    rw [or_iff_right hnot, and_iff_right (show searchEnd table env ≤ 2 ^ 31 by omega)]
    obtain ⟨table₁, err, hexp, hx, hin, herr⟩ := @fdtableExpand_spec table env f hbits hf
    have hif : (if searchEnd table env ≤ f then table.fdtableExpand (BitVec.ofNat 32 f) env
        else some (table, 0)) = some (table₁, err) := (if_pos (by omega)).trans hexp
    by_cases hdrops : err < 0 ∨ 2 ^ 31 ≤ f
    · obtain ⟨fds', ret, hinstall, hneg, hretained⟩ := fInstallStart_drops hd hslot (by omega) hif hdrops
      refine iff_of_true ⟨fds', table₁, ret, hinstall, .inr ⟨hneg, hx.get, hretained⟩⟩ ?_
      obtain herr' | hge := hdrops
      · exact .inl (Nat.le_of_not_lt fun hlt ↦ by omega)
      · exact .inr (.inl (by omega))
    · obtain ⟨herr', hpos⟩ := not_or.mp hdrops
      obtain ⟨rfl, hlt, hroom⟩ := herr.resolve_left herr'
      obtain ⟨table₂, hinstall, hget, hother⟩ :=
        @fInstallStart_stores fds table table₁ d start env f hx.bits hslot hif hlt (by omega)
      have hstored := installsOrDrops_of_stored (by omega)
        (fun g hge hg ↦ htaken g hge (by omega) (by omega))
        ⟨table₂, hinstall, hget, fun g hg ↦ (hother g hg).trans (hx.get g)⟩
      rw [hstored]
      refine ⟨fun h ↦ .inr (.inr h), ?_⟩
      rintro (hge | heq | h)
      · have hfree : table.get f = none := by
          by_contra hopen
          have hin := FdTable.lt_of_get (Option.isSome_iff_ne_none.mpr hopen)
          omega
        exact ⟨hroom.resolve_left (Nat.not_lt_of_le hge), hfree⟩
      · omega
      · exact h

def threeFiles : Pool Fd := Pool.ofCounts [1, 1, 1] fun _ ↦ ⟨0⟩

def fullTable : FdTable := ⟨[some 0, some 1], [0], []⟩

/-- The limit that `setrlimit` has lowered. -/
def lowered (rlimit : BitVec 64) : Env := ⟨rlimit, false, 0⟩

theorem installsOrDrops_gap :
    InstallsOrDrops threeFiles ⟨[some 0, none, some 1], [0], []⟩ 2 0 (lowered 2) :=
  (installsOrDrops_iff rfl (by decide) (by decide)).mpr (.inl ⟨1, by decide⟩)

/-- With all slots below the limit taken, the slot at the limit is overwritten. -/
theorem fInstallStart_overwrites :
    fullTable.cloexec.length = bitsSize fullTable.size ∧ threeFiles.live 2 ∧
    fullTable.get 1 = some 1 ∧
    (∃ table', fInstallStart threeFiles fullTable 2 0 (lowered 1) = some (threeFiles, table', 1) ∧
      table'.get 1 = some 2) ∧
    ¬InstallsOrDrops threeFiles fullTable 2 0 (lowered 1) := by
  have hrun : ∃ table', fInstallStart threeFiles fullTable 2 0 (lowered 1) =
      some (threeFiles, table', 1) ∧ table'.get 1 = some 2 := ⟨_, rfl, rfl⟩
  refine ⟨rfl, by decide, rfl, hrun, ?_⟩
  obtain ⟨table', hrun, -⟩ := hrun
  rintro ⟨fds', table₂, ret, hinstall, ⟨f, rfl, hleast, -⟩ | ⟨hneg, -⟩⟩
  · rw [hrun] at hinstall
    cases hinstall
    exact absurd hleast.1.2.1 (by decide)
  · rw [hrun] at hinstall
    cases hinstall
    exact absurd hneg (by decide)

end Isl.Fs.Cloexec
