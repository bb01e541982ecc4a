import Isl.Kernel.Brk

/-!
The pages that `mmap` maps. An address that the caller gives is where the
mapping goes, whatever is mapped there.
-/

namespace Isl.Kernel.Mmap

open Isl.Lib Isl.Lib.Run Isl.Emu Isl.Emu.Memory

variable {host : Host} {m p start pages : ℕ} {w w' : World} {files : Dword → Option File}
  {addr : Addr} {len prot flags fd offset : Dword}

/-- `MMAP_FIXED`, which no function looks at. -/
def mmapFixed : Dword := 0x10

/-- A function looks up pages of the address space only. -/
def LooksInside (host : Host) (m : ℕ) (w : World) (op : PtOp) : Prop :=
  ∀ p ∈ op.pages host m w, p < memPages

/-- The contents that the flags and the file give a mapping. -/
def mapping (files : Dword → Option File) (flags fd offset : Dword) : Option (ℤ → Byte) :=
  if has flags mmapAnonymous then if has flags mmapPrivate then some fun _ ↦ 0 else none
  else (files fd).join.bind (· offset)

/-- The ways in which a call ends without a mapping, its address apart. -/
def MapsNothing (host : Host) (files : Dword → Option File) (len prot flags fd offset : Dword) :
    Prop :=
  len = 0 ∨ badProt prot ∨ mapping files flags fd offset = none ∨ host.noMemory = true ∨
    pageRoundUp len = memPages

/-- A call with a defined effect that keeps the pages which were mapped, and
on success returns a range that was not. -/
def MapsFresh (host : Host) (m : ℕ) (w : World) (c : Call (Except ℤ Addr)) (pages : ℕ) : Prop :=
  c.Always (pt host m) (LooksInside host m) w ∧ ∃ r w', c.run (pt host m) w = some (r, w') ∧
    (∀ p, (w.memPt m p).isSome → Keeps w w' m p) ∧
    ∀ addr, r = .ok addr → ∀ p, page addr ≤ p → p < page addr + pages → w.memPt m p = none

/-- The kernel chooses the address, nothing gets mapped, or the range at the
hint is free. -/
def HintFits (host : Host) (m : ℕ) (w : World) (files : Dword → Option File) (addr : Addr)
    (len prot flags fd offset : Dword) : Prop :=
  addr = 0 ∨ pgOffset addr ≠ 0 ∨ MapsNothing host files len prot flags fd offset ∨
    page addr + pageRoundUp len ≤ memPages ∧
      ∀ p, page addr ≤ p → p < page addr + pageRoundUp len → w.memPt m p = none

theorem Keeps.refl (w : World) (m p : ℕ) : Keeps w w m p := ⟨rfl, fun _ _ ↦ rfl⟩

/-! The hole that is chosen. -/

theorem findHoleIn_free {size a : ℕ} (n : ℕ) {hole : Option ℕ}
    (hh : ∀ e ∈ hole, ∀ q, a + n ≤ q → q < e → w.memPt m q = none)
    (h : findHoleIn w m size (List.range' a n).reverse hole = some p) :
    ∀ q, p ≤ q → q < p + size → w.memPt m q = none := by
  induction n generalizing hole with
  | zero => cases h
  | succ n ih =>
    rw [List.range'_1_concat, List.reverse_concat, findHoleIn] at h
    cases hq : w.memPt m (a + n) with
    | some entry =>
      rw [hq, Option.isSome_some, if_pos rfl] at h
      exact ih (fun _ he ↦ absurd he (Option.not_mem_none _)) h
    | none =>
      rw [hq, Option.isSome_none, if_neg Bool.false_ne_true] at h
      -- the hole goes on over this page
      have hfree : ∀ q, a + n ≤ q → q < hole.getD (a + n + 1) → w.memPt m q = none := by
        intro q hle hlt
        obtain rfl | hgt := hle.eq_or_lt
        · exact hq
        · cases hole with
          | none => exact absurd hlt (Nat.not_lt_of_le hgt)
          | some e => exact hh e rfl q hgt hlt
      dsimp only at h
      split at h
      · cases h
        exact fun q hle hlt ↦ hfree q hle (by omega)
      · refine ih (fun e he q hle hlt ↦ hfree q hle ?_) h
        rwa [Option.mem_some_iff.mp he]

theorem findHole_free {size : ℕ} (h : findHole w m size = some p) :
    ∀ q, p ≤ q → q < p + size → w.memPt m q = none := by
  unfold findHole holePages at h
  exact findHoleIn_free _ (fun _ he ↦ absurd he (Option.not_mem_none _)) h

/-! The mapping. -/

theorem mmapAt_of_none (h : mapping files flags fd offset = none) :
    (mmapAt files start pages prot flags fd offset).Always (pt host m) (LooksInside host m) w ∧
    ∃ err < 0, (mmapAt files start pages prot flags fd offset).run (pt host m) w = some (err, w) := by
  unfold mapping at h
  unfold mmapAt
  by_cases hanon : has flags mmapAnonymous
  · rw [if_pos hanon] at h ⊢
    by_cases hprivate : has flags mmapPrivate
    · rw [if_pos hprivate] at h
      cases h
    · rw [if_pos (by simpa using hprivate)]
      exact ⟨trivial, eInval, by decide, rfl⟩
  · rw [if_neg hanon] at h ⊢
    cases hfile : files fd with
    | none => exact ⟨trivial, ebadf, by decide, rfl⟩
    | some file =>
      cases file with
      | none => exact ⟨trivial, enodev, by decide, rfl⟩
      | some mmap =>
        -- the host refuses to map the file there
        have hnone : mmap offset = none := by simpa [hfile] using h
        dsimp only
        rw [hnone]
        exact ⟨Prog.always_perform.mpr nofun, eInval, by decide, rfl⟩

theorem mmapAt_of_some {c : ℤ → Byte} (h : mapping files flags fd offset = some c)
    (hpages : pages ≠ 0) : ∃ ptFlags,
      ((mmapAt files start pages prot flags fd offset).Always (pt host m) (LooksInside host m) w ↔
        ∀ q ∈ mappedPages host start pages, q < memPages) ∧
      (mmapAt files start pages prot flags fd offset).run (pt host m) w =
        some (mapPages host w m start pages c ptFlags).swap := by
  unfold mapping at h
  unfold mmapAt
  by_cases hanon : has flags mmapAnonymous
  · rw [if_pos hanon] at h ⊢
    by_cases hprivate : has flags mmapPrivate
    · rw [if_pos hprivate] at h
      cases h
      rw [if_neg (by simpa using hprivate)]
      refine ⟨prot ||| pAnon, Prog.always_perform.trans ?_, ?_⟩
      · rw [LooksInside, PtOp.pages, if_neg hpages]
      · change some (mapNothing host w m start pages prot).swap = _
        rw [mapNothing, if_neg hpages]
    · rw [if_neg hprivate] at h
      cases h
  · rw [if_neg hanon] at h ⊢
    cases hfile : files fd with
    | none => simp [hfile] at h
    | some file =>
      cases file with
      | none => simp [hfile] at h
      | some mmap =>
        have hsome : mmap offset = some c := by simpa [hfile] using h
        refine ⟨prot, ?_⟩
        dsimp only
        rw [hsome]
        exact ⟨Prog.always_perform, rfl⟩

/-- A mapping of pages looks at the pages of its range. -/
theorem mappedPages_lt_iff (hs : start ≤ memPages) (hpages : pages < memPages) (hne : pages ≠ 0)
    (hhost : host.noMemory = false) :
    (∀ q ∈ mappedPages host start pages, q < memPages) ↔ start + pages ≤ memPages := by
  have hmax : memPages = 2 ^ 20 := by decide
  have hsize : pages * pageSize % 2 ^ 32 ≠ 0 := by
    simp only [pageSize]
    omega
  have hcount : (start + pages) % 2 ^ 32 - start = pages := by omega
  rw [mappedPages, if_neg (by rw [hhost]; exact not_or.mpr ⟨Bool.false_ne_true, hsize⟩), pageLoop,
    hcount]
  refine ⟨fun h ↦ ?_, fun h q hq ↦ (List.mem_range'_1.mp hq).2.trans_le h⟩
  have hlast := h (start + pages - 1) (List.mem_range'_1.mpr ⟨by omega, by omega⟩)
  omega

theorem page_ofNat (h : start < memPages) : page (BitVec.ofNat 32 (start * pageSize)) = start := by
  have hmax : memPages = 2 ^ 20 := by decide
  have hlt : start * pageSize < 2 ^ 32 := by
    simp only [pageSize]
    omega
  rw [page, BitVec.toNat_ofNat, Nat.mod_eq_of_lt hlt]
  exact Nat.mul_div_cancel start (by decide)

theorem mapsFresh_error {err : ℤ} : MapsFresh host m w (pure (.error err)) pages :=
  ⟨trivial, .error err, w, rfl, fun p _ ↦ .refl w m p, nofun⟩

/-- The end of `do_mmap`. -/
def mmapFrom (files : Dword → Option File) (start pages : ℕ) (prot flags fd offset : Dword) :
    Call (Except ℤ Addr) := do
  let err ← mmapAt files start pages prot flags fd offset
  return if err < 0 then .error err else .ok (BitVec.ofNat 32 (start * pageSize))

theorem always_mmapFrom {P : World → PtOp → Prop} :
    (mmapFrom files start pages prot flags fd offset).Always (pt host m) P w ↔
      (mmapAt files start pages prot flags fd offset).Always (pt host m) P w :=
  Prog.always_bind.trans (and_iff_left fun _ _ _ ↦ trivial)

theorem run_mmapFrom {err : ℤ}
    (h : (mmapAt files start pages prot flags fd offset).run (pt host m) w = some (err, w')) :
    (mmapFrom files start pages prot flags fd offset).run (pt host m) w =
      some (if err < 0 then .error err else .ok (BitVec.ofNat 32 (start * pageSize)), w') := by
  rw [mmapFrom, Prog.run_bind, h]
  rfl

/-- A mapping that fails leaves everything as it was. -/
theorem mapsFresh_mmapFrom_of_fails {err : ℤ} (herr : err < 0)
    (ha : (mmapAt files start pages prot flags fd offset).Always (pt host m) (LooksInside host m) w)
    (h : (mmapAt files start pages prot flags fd offset).run (pt host m) w = some (err, w)) :
    MapsFresh host m w (mmapFrom files start pages prot flags fd offset) pages := by
  refine ⟨always_mmapFrom.mpr ha, .error err, w, ?_, fun p _ ↦ .refl w m p, nofun⟩
  rw [run_mmapFrom h, if_pos herr]

theorem mapPages_fails {c : ℤ → Byte} {ptFlags : Flags}
    (h : host.noMemory = true ∨ pages = memPages) :
    mappedPages host start pages = [] ∧
    ∃ err < 0, mapPages host w m start pages c ptFlags = (w, err) := by
  have hsize (hp : pages = memPages) : pages * pageSize % 2 ^ 32 = 0 := by
    rw [hp]
    decide
  refine ⟨if_pos (h.imp_right hsize), ?_⟩
  cases hhost : host.noMemory with
  | true =>
    refine ⟨eNomem, by decide, ?_⟩
    rw [mapPages, hhost, if_pos rfl]
  | false =>
    obtain hp := h.resolve_left (by simp [hhost])
    refine ⟨eInval, by decide, ?_⟩
    rw [mapPages, hhost, if_neg Bool.false_ne_true, hsize hp]
    rfl

/-- From a page that has been chosen: nothing gets mapped, or the range is free. -/
theorem mapsFresh_mmapFrom_iff (hw : w.Wf) (hm : m < w.nextMem) (hs : start < memPages)
    (hne : pages ≠ 0) (hle : pages ≤ memPages) :
    MapsFresh host m w (mmapFrom files start pages prot flags fd offset) pages ↔
      (mapping files flags fd offset = none ∨ host.noMemory = true ∨ pages = memPages) ∨
      start + pages ≤ memPages ∧ ∀ p, start ≤ p → p < start + pages → w.memPt m p = none := by
  have hmax : memPages = 2 ^ 20 := by decide
  cases hmapping : mapping files flags fd offset with
  | none =>
    refine iff_of_true ?_ (.inl (.inl rfl))
    obtain ⟨ha, err, herr, hrun⟩ := @mmapAt_of_none host m start pages w files prot flags fd offset
      hmapping
    exact mapsFresh_mmapFrom_of_fails herr ha hrun
  | some c =>
    obtain ⟨ptFlags, ha, hrun⟩ := @mmapAt_of_some host m start pages w files prot flags fd offset c
      hmapping hne
    by_cases hfails : host.noMemory = true ∨ pages = memPages
    · refine iff_of_true ?_ (.inl (.inr hfails))
      obtain ⟨hnil, err, herr, hmap⟩ := @mapPages_fails host m start pages w c ptFlags hfails
      rw [hmap] at hrun
      exact mapsFresh_mmapFrom_of_fails herr (ha.mpr (hnil ▸ nofun)) hrun
    · obtain ⟨hhost, hpages⟩ := not_or.mp hfails
      have hhost : host.noMemory = false := by simpa using hhost
      rw [mappedPages_lt_iff hs.le (hle.lt_of_ne hpages) hne hhost] at ha
      refine Iff.trans ?_ (or_iff_right (not_or.mpr ⟨nofun, hfails⟩)).symm
      by_cases hin : start + pages ≤ memPages
      · have hsize : pages * pageSize % 2 ^ 32 ≠ 0 := by
          simp only [pageSize]
          omega
        obtain ⟨w', hmap, hw', hf, -, hout⟩ := @mapPages_spec host m start w pages pages c ptFlags
          hw hm hhost hsize (by omega) hin
        have hfrom := run_mmapFrom (hrun.trans (congrArg (fun r ↦ some r.swap) hmap))
        refine Iff.trans ?_ (and_iff_right hin).symm
        constructor
        · rintro ⟨-, r, w₂, hrun₂, -, hfree⟩
          cases hfrom.symm.trans hrun₂
          have hfree := hfree _ rfl
          rwa [page_ofNat hs] at hfree
        · intro hfree
          refine ⟨always_mmapFrom.mpr (ha.mpr hin), _, w', hfrom, fun p hp ↦ ?_, fun addr hr ↦ ?_⟩
          · refine keeps_of_frame hf hw hw' (hout p fun h ↦ ?_)
            rw [hfree p h.1 h.2] at hp
            cases hp
          · cases hr
            rw [page_ofNat hs]
            exact hfree
      · exact iff_of_false (fun h ↦ hin (ha.mp (always_mmapFrom.mp h.1))) fun h ↦ hin h.1

/-! The calls. -/

theorem mapsFresh_ptFindHole {f : Option ℕ → Call (Except ℤ Addr)} {size : ℕ} :
    MapsFresh host m w (ptFindHole size >>= f) pages ↔
      MapsFresh host m w (f (findHole w m size)) pages := by
  unfold MapsFresh
  rw [run_ptFindHole]
  refine and_congr_left fun _ ↦ Prog.always_perform_bind.trans ?_
  exact and_iff_right PtOp.inside_findHole.1

theorem doMmap_zero : doMmap files 0 len prot flags fd offset = do
    match ← ptFindHole (pageRoundUp len) with
    | some page => mmapFrom files page (pageRoundUp len) prot flags fd offset
    | none => return .error eNomem := by
  rw [doMmap, mmapPage, if_pos rfl, bind_assoc]
  refine congrArg _ (funext fun hole ↦ ?_)
  cases hole <;> rfl

theorem doMmap_hint (h : addr ≠ 0) (ha : pgOffset addr = 0) :
    doMmap files addr len prot flags fd offset =
      mmapFrom files (page addr) (pageRoundUp len) prot flags fd offset := by
  rw [doMmap, mmapPage_eq h ha, pure_bind]
  rfl

theorem pageRoundUp_pos (bytes : Dword) : pageRoundUp bytes ≠ 0 := Nat.succ_ne_zero _

theorem mapsFresh_mmapCommon_iff (hw : w.Wf) (hm : m < w.nextMem) :
    MapsFresh host m w (mmapCommon files addr len prot flags fd offset) (pageRoundUp len) ↔
      HintFits host m w files addr len prot flags fd offset := by
  unfold HintFits MapsNothing
  by_cases hlen : len = 0
  · refine iff_of_true ?_ (.inr (.inr (.inl (.inl hlen))))
    rw [mmapCommon, if_pos hlen]
    exact mapsFresh_error
  by_cases hprot : badProt prot
  · refine iff_of_true ?_ (.inr (.inr (.inl (.inr (.inl hprot)))))
    rw [mmapCommon, if_neg hlen, if_pos hprot]
    exact mapsFresh_error
  rw [mmapCommon, if_neg hlen, if_neg hprot]
  by_cases hzero : addr = 0
  · refine iff_of_true ?_ (.inl hzero)
    rw [hzero, doMmap_zero, mapsFresh_ptFindHole]
    cases hfind : findHole w m (pageRoundUp len) with
    | none => exact mapsFresh_error
    | some hole =>
      have hle := findHole_le hfind
      have hpos := Nat.pos_of_ne_zero (pageRoundUp_pos len)
      refine (mapsFresh_mmapFrom_iff hw hm ?_ (pageRoundUp_pos len) (pageRoundUp_le len)).mpr ?_
      · exact (Nat.lt_add_of_pos_right hpos).trans_le hle
      · exact .inr ⟨hle, findHole_free hfind⟩
  by_cases haligned : pgOffset addr ≠ 0
  · refine iff_of_true ?_ (.inr (.inl haligned))
    rw [doMmap, mmapPage, if_neg hzero, if_pos haligned, pure_bind]
    exact mapsFresh_error
  · rw [doMmap_hint hzero (not_not.mp haligned)]
    refine (mapsFresh_mmapFrom_iff hw hm (World.page_lt addr) (pageRoundUp_pos len)
      (pageRoundUp_le len)).trans ?_
    rw [or_iff_right hzero, or_iff_right haligned, or_iff_right hlen, or_iff_right hprot]

end Isl.Kernel.Mmap
