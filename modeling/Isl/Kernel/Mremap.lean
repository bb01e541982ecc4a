import Isl.Kernel.MmapHint

/-!
Resizing a mapping. `sys_mremap` rounds both lengths down to pages, so the last
page of a length that is no multiple of a page belongs to neither range.
-/

namespace Isl.Kernel.Mmap

open Isl.Lib Isl.Lib.Run Isl.Emu Isl.Emu.Memory

variable {host : Host} {m p start : ℕ} {w w' : World} {addr : Addr} {oldLen newLen flags : Dword}

/-- The pages of `len` bytes from an aligned address on. -/
def Covers (addr : Addr) (len : Dword) (p : ℕ) : Prop :=
  page addr ≤ p ∧ p < page addr + pageCeil len

/-- What a mapping is after a call that returns its address. -/
structure Resized (m : ℕ) (addr : Addr) (oldLen newLen : Dword) (w w' : World) : Prop where
  mapped : ∀ p, Covers addr newLen p → (w'.memPt m p).isSome
  bytes : ∀ a, addr ≤ a → a.toNat < addr.toNat + min oldLen.toNat newLen.toNat →
    byteAt w' m a = byteAt w m a
  others : ∀ p, ¬Covers addr oldLen p → ¬Covers addr newLen p → Keeps w w' m p

def Outcome (m : ℕ) (addr : Addr) (oldLen newLen : Dword) (w w' : World) : Except ℤ Addr → Prop
  | .ok a => a = addr → Resized m addr oldLen newLen w w'
  | .error _ => w'.memPt m = w.memPt m

/-- A call with a defined effect that resizes the mapping or fails. -/
def Resizes (host : Host) (m : ℕ) (w : World) (addr : Addr) (oldLen newLen : Dword)
    (c : Call (Except ℤ Addr)) : Prop :=
  c.Always (pt host m) (LooksInside host m) w ∧
    ∃ r w', c.run (pt host m) w = some (r, w') ∧ Outcome m addr oldLen newLen w w' r

/-- All pages of the old range are mapped, and anonymous. -/
def OldMapped (m : ℕ) (w : World) (addr : Addr) (oldLen : Dword) : Prop :=
  ∀ p, Covers addr oldLen p → ∃ entry, w.memPt m p = some entry ∧ has entry.flags pAnon

/-- Growing fails: the first page is not mapped or not anonymous, or one of the
pages it would add is mapped. -/
def GrowRefused (m : ℕ) (w : World) (addr : Addr) (oldLen newLen : Dword) : Prop :=
  ((w.memPt m (page addr)).all fun entry ↦ !has entry.flags pAnon) ∨
    ∃ p, page addr + page oldLen ≤ p ∧ p < page addr + page newLen ∧ (w.memPt m p).isSome

/-- The part of a page at the end of the new range is mapped. -/
def LastMapped (m : ℕ) (w : World) (addr : Addr) (newLen : Dword) : Prop :=
  pgOffset newLen = 0 ∨ (w.memPt m (page addr + page newLen)).isSome

def MremapFits (host : Host) (m : ℕ) (w : World) (addr : Addr) (oldLen newLen flags : Dword) :
    Prop :=
  has flags (~~~(mremapMaymove ||| mremapFixed)) ∨ has flags mremapFixed ∨
    if page newLen ≤ page oldLen then
      LastMapped m w addr newLen ∧ (page newLen < page oldLen → pgOffset newLen = 0)
    else
      GrowRefused m w addr oldLen newLen ∨
        page addr + page newLen ≤ memPages ∧ (host.noMemory = true ∨ LastMapped m w addr newLen)

/-! The pages of a length. -/

theorem pageCeil_eq (a : Addr) : pageCeil a = if pgOffset a = 0 then page a else page a + 1 := by
  by_cases h : pgOffset a = 0
  · rw [if_pos h]
    simp only [pageCeil, page, pgOffset, pageSize] at h ⊢
    omega
  · rw [if_neg h]
    simp only [pageCeil, page, pgOffset, pageSize] at h ⊢
    omega

theorem page_le_of_lt {a : Addr} {n : ℕ} {len : Dword} (ha : pgOffset addr = 0) (hle : addr ≤ a)
    (hlt : a.toNat < addr.toNat + n) (hn : n ≤ len.toNat) : Covers addr len (page a) := by
  have hle : addr.toNat ≤ a.toNat := hle
  unfold Covers
  simp only [pgOffset, page, pageCeil, pageSize] at ha ⊢
  omega

section

variable (hw : w.Wf)

include hw

theorem oldMapped_le (h : OldMapped m w addr oldLen) : page addr + pageCeil oldLen ≤ memPages := by
  have haddr := World.page_lt addr
  by_cases hz : pageCeil oldLen = 0
  · omega
  · obtain ⟨entry, he, -⟩ := h (page addr + pageCeil oldLen - 1) ⟨by omega, by omega⟩
    have hin := (hw.inRange he).2
    omega

/-- A call that changes pages above those of both lengths, or of the longer
one only. -/
theorem resized_of_pages (hf : World.Frame m w.nextData w.nextBlock w w') (hw' : w'.Wf)
    (ha : pgOffset addr = 0) (hmapped : ∀ p, Covers addr newLen p → (w'.memPt m p).isSome)
    (hkept : ∀ p, Covers addr oldLen p → Covers addr newLen p → w'.memPt m p = w.memPt m p)
    (hothers : ∀ p, ¬Covers addr oldLen p → ¬Covers addr newLen p → w'.memPt m p = w.memPt m p) :
    Resized m addr oldLen newLen w w' where
  mapped := hmapped
  bytes a hle hlt := byteAt_of_frame hf hw hw' <|
    hkept (page a) (page_le_of_lt ha hle hlt (Nat.min_le_left _ _))
      (page_le_of_lt ha hle hlt (Nat.min_le_right _ _))
  others p ho hn := keeps_of_frame hf hw hw' (hothers p ho hn)

end

/-! The steps of a call. -/

theorem resizes_error {err : ℤ} : Resizes host m w addr oldLen newLen (pure (.error err)) :=
  ⟨trivial, .error err, w, rfl, rfl⟩

theorem resizes_iff_of_run {c : Call (Except ℤ Addr)} {r : Except ℤ Addr}
    (ha : c.Always (pt host m) (LooksInside host m) w)
    (hrun : c.run (pt host m) w = some (r, w')) :
    Resizes host m w addr oldLen newLen c ↔ Outcome m addr oldLen newLen w w' r := by
  refine ⟨fun h ↦ ?_, fun h ↦ ⟨ha, r, w', hrun, h⟩⟩
  obtain ⟨-, r₂, w₂, hrun₂, h⟩ := h
  cases hrun.symm.trans hrun₂
  exact h

theorem resizes_memPt {f : Option PtEntry → Call (Except ℤ Addr)} :
    Resizes host m w addr oldLen newLen (memPt p >>= f) ↔
      p < memPages ∧ Resizes host m w addr oldLen newLen (f (w.memPt m p)) := by
  have hpage : LooksInside host m w (.memPt p) ↔ p < memPages :=
    ⟨fun h ↦ h p List.mem_cons_self, fun h _ hq ↦ List.mem_singleton.mp hq ▸ h⟩
  unfold Resizes
  rw [run_memPt]
  refine (and_congr_left fun _ ↦ ?_).trans and_assoc
  exact Prog.always_perform_bind.trans (and_congr_left fun _ ↦ hpage)

/-- The loop over the old pages passes where all of them are mapped. -/
theorem resizes_checkOld {l : List ℕ} {f : Unit → Call (Except ℤ Addr)} (hw : w.Wf)
    (h : ∀ q ∈ l, (w.memPt m q).isSome) :
    Resizes host m w addr oldLen newLen (checkOld l >>= f) ↔
      Resizes host m w addr oldLen newLen (f ()) := by
  induction l with
  | nil => exact Iff.rfl
  | cons q l ih =>
    obtain ⟨entry, hentry⟩ := Option.isSome_iff_exists.mp (h q List.mem_cons_self)
    have hq := (hw.inRange hentry).2
    rw [checkOld, bind_assoc, resizes_memPt, hentry, and_iff_right hq]
    exact ih fun r hr ↦ h r (List.mem_cons_of_mem q hr)

/-! Shrinking. -/

/-- The check of a range without gaps passes. -/
theorem ptUnmap_of_mapped {n : ℕ} (h : ∀ q, start ≤ q → q < start + n → (w.memPt m q).isSome) :
    w.ptUnmap m start n false = ((w.ptUnmap m start n true).1, 0) := by
  have hany : (List.range' start n).any (fun p ↦ (w.memPt m p).isNone) = false := by
    refine List.any_eq_false.mpr fun q hq ↦ ?_
    obtain ⟨hle, hlt⟩ := List.mem_range'_1.mp hq
    simpa [Option.isSome_iff_ne_none] using h q hle hlt
  rw [World.ptUnmap, hany, Bool.and_false, if_neg Bool.false_ne_true]
  rfl

theorem covers_last (h : pgOffset newLen ≠ 0) : Covers addr newLen (page addr + page newLen) := by
  refine ⟨Nat.le_add_right _ _, ?_⟩
  rw [pageCeil_eq, if_neg h]
  omega

/-- The pages of the new range, the last part of a page apart. -/
theorem Covers.lt_or_last (h : Covers addr newLen p) :
    p < page addr + page newLen ∨ pgOffset newLen ≠ 0 ∧ p = page addr + page newLen := by
  obtain ⟨-, hlt⟩ := h
  rw [pageCeil_eq] at hlt
  split at hlt <;> omega

theorem covers_of_lt (hle : page addr ≤ p) (hlt : p < page addr + page oldLen) :
    Covers addr oldLen p := by
  have hpages := (page_le_pageCeil oldLen).1
  exact ⟨hle, by omega⟩

theorem OldMapped.isSome (h : OldMapped m w addr oldLen) (hle : page addr ≤ p)
    (hlt : p < page addr + page oldLen) : (w.memPt m p).isSome := by
  obtain ⟨entry, hentry, -⟩ := h p (covers_of_lt hle hlt)
  exact Option.isSome_iff_exists.mpr ⟨entry, hentry⟩

theorem resized_shrink_iff (hw : w.Wf) (ha : pgOffset addr = 0) (hle : page newLen ≤ page oldLen)
    (hold : OldMapped m w addr oldLen) (hf : World.Frame m w.nextData w.nextBlock w w')
    (hw' : w'.Wf)
    (hpt : ∀ p, w'.memPt m p =
      if page addr + page newLen ≤ p ∧ p < page addr + page oldLen then none else w.memPt m p) :
    Resized m addr oldLen newLen w w' ↔
      LastMapped m w addr newLen ∧ (page newLen < page oldLen → pgOffset newLen = 0) := by
  constructor
  · intro h
    by_cases hz : pgOffset newLen = 0
    · exact ⟨.inl hz, fun _ ↦ hz⟩
    · have hlast := h.mapped _ (covers_last hz)
      rw [hpt] at hlast
      split at hlast
      · cases hlast
      · exact ⟨.inr hlast, fun hlt ↦ absurd hlt (by omega)⟩
  · rintro ⟨hlast, hwhole⟩
    have hout (p : ℕ) (hp : Covers addr newLen p) :
        ¬(page addr + page newLen ≤ p ∧ p < page addr + page oldLen) := by
      rintro ⟨hge, hlt⟩
      obtain hin | ⟨hz, rfl⟩ := hp.lt_or_last
      · exact absurd hge (by omega)
      · exact hz (hwhole (by omega))
    refine resized_of_pages hw hf hw' ha (fun p hp ↦ ?_) (fun p _ hp ↦ ?_) fun p ho _ ↦ ?_
    · rw [hpt, if_neg (hout p hp)]
      obtain hlt | ⟨hz, rfl⟩ := hp.lt_or_last
      · exact hold.isSome hp.1 (by omega)
      · exact hlast.resolve_left hz
    · rw [hpt, if_neg (hout p hp)]
    · rw [hpt, if_neg fun h ↦ ho (covers_of_lt (by omega) h.2)]

theorem resizes_shrink_iff (hw : w.Wf) (ha : pgOffset addr = 0) (hle : page newLen ≤ page oldLen)
    (hold : OldMapped m w addr oldLen) :
    Resizes host m w addr oldLen newLen (do
      let err ← ptUnmap (page addr + page newLen) (page oldLen - page newLen) false
      return if err < 0 then .error efault else .ok addr) ↔
      LastMapped m w addr newLen ∧ (page newLen < page oldLen → pgOffset newLen = 0) := by
  have hmax : memPages = 2 ^ 20 := by decide
  have hend : page addr + page oldLen ≤ memPages := by
    have hpages := (page_le_pageCeil oldLen).1
    have hold := oldMapped_le hw hold
    omega
  have hsum : page addr + page newLen + (page oldLen - page newLen) = page addr + page oldLen := by
    omega
  have hcount : (page addr + page newLen + (page oldLen - page newLen)) % 2 ^ 32 -
      (page addr + page newLen) = page oldLen - page newLen := by
    omega
  have hunmap := @ptUnmap_of_mapped m (page addr + page newLen) w (page oldLen - page newLen)
    fun q hge hlt ↦ hold.isSome (by omega) (hsum ▸ hlt)
  have hrun : (do
      let err ← ptUnmap (page addr + page newLen) (page oldLen - page newLen) false
      return if err < 0 then .error efault else .ok addr : Call (Except ℤ Addr)).run (pt host m) w =
      some (.ok addr,
        (w.ptUnmap m (page addr + page newLen) (page oldLen - page newLen) true).1) := by
    rw [run_ptUnmap, hcount, hunmap]
    rfl
  refine (resizes_iff_of_run (Prog.always_bind.mpr ⟨Prog.always_perform.mpr fun q hq ↦ ?_, ?_⟩)
    hrun).trans (Iff.trans (imp_iff_right rfl) ?_)
  · have hlt := mem_checkedPages hq fun _ hr ↦ hr
    exact hlt.trans_le (hsum ▸ hend)
  · exact fun _ _ _ ↦ trivial
  · refine resized_shrink_iff hw ha hle hold (World.ptUnmap_frame _ _ true)
      (hw.ptUnmap m _ _ _) fun p ↦ ?_
    rw [memPt_ptUnmap_force, hsum]

/-! Growing. -/

theorem upTo_of_none {stop : ℕ → Bool} {l : List ℕ} (h : ∀ q ∈ l, stop q = false) :
    upTo stop l = l := by
  induction l with
  | nil => rfl
  | cons q l ih =>
    rw [upTo, if_neg (by simp [h q List.mem_cons_self]),
      ih fun r hr ↦ h r (List.mem_cons_of_mem q hr)]

theorem upTo_le {stop : ℕ → Bool} {l : List ℕ} {q : ℕ} (hl : l.Pairwise (· < ·)) (hq : q ∈ l)
    (hs : stop q) (h : p ∈ upTo stop l) : p ≤ q := by
  induction l with
  | nil => cases hq
  | cons r l ih =>
    obtain ⟨hr, hl⟩ := List.pairwise_cons.mp hl
    rw [upTo] at h
    split at h
    · rename_i hstop
      rw [List.mem_singleton.mp h]
      obtain rfl | hq := List.mem_cons.mp hq
      · exact le_rfl
      · exact (hr q hq).le
    · rename_i hstop
      have htail := (List.mem_cons.mp hq).resolve_left fun heq ↦ hstop (heq ▸ hs)
      obtain rfl | h := List.mem_cons.mp h
      · exact (hr q htail).le
      · exact ih hl htail h

/-- The part of `sys_mremap` after its checks. -/
def growFrom (addr : Addr) (oldPages newPages : ℕ) (ptFlags : Flags) : Call (Except ℤ Addr) := do
  if !(← ptIsHole (page addr + oldPages) (newPages - oldPages)) then return .error eNomem
  else
    let err ← ptMapNothing (page addr + oldPages) (newPages - oldPages) ptFlags
    return if err < 0 then .error err else .ok addr

theorem resizes_ptIsHole {n : ℕ} {f : Bool → Call (Except ℤ Addr)} :
    Resizes host m w addr oldLen newLen (ptIsHole start n >>= f) ↔
      (∀ q ∈ upTo (fun p ↦ (w.memPt m p).isSome) (pageLoop start n), q < memPages) ∧
      Resizes host m w addr oldLen newLen
        (f ((pageLoop start n).all fun p ↦ (w.memPt m p).isNone)) := by
  unfold Resizes
  refine Iff.trans (and_congr_left' ?_) and_assoc
  exact Prog.always_perform_bind

theorem resized_grow_iff (hw : w.Wf) (ha : pgOffset addr = 0)
    (hold : OldMapped m w addr oldLen) (hf : World.Frame m w.nextData w.nextBlock w w')
    (hw' : w'.Wf)
    (hin : ∀ p, page addr + page oldLen ≤ p → p < page addr + page newLen → (w'.memPt m p).isSome)
    (hout : ∀ p, ¬(page addr + page oldLen ≤ p ∧ p < page addr + page newLen) →
      w'.memPt m p = w.memPt m p)
    (hfree : ∀ p, page addr + page oldLen ≤ p → p < page addr + page newLen →
      w.memPt m p = none) :
    Resized m addr oldLen newLen w w' ↔ LastMapped m w addr newLen := by
  have hlast : w'.memPt m (page addr + page newLen) = w.memPt m (page addr + page newLen) :=
    hout _ fun h ↦ lt_irrefl _ h.2
  constructor
  · intro h
    by_cases hz : pgOffset newLen = 0
    · exact .inl hz
    · exact .inr (hlast ▸ h.mapped _ (covers_last hz))
  · intro hend
    refine resized_of_pages hw hf hw' ha (fun p hp ↦ ?_) (fun p ho _ ↦ hout p fun h ↦ ?_)
      fun p _ hn ↦ hout p fun h ↦ hn (covers_of_lt (by omega) h.2)
    · obtain hp' | ⟨hz, rfl⟩ := hp.lt_or_last
      · by_cases hge : page addr + page oldLen ≤ p
        · exact hin p hge hp'
        · rw [hout p fun h ↦ hge h.1]
          exact hold.isSome hp.1 (Nat.lt_of_not_le hge)
      · rw [hlast]
        exact hend.resolve_left hz
    · obtain ⟨entry, hentry, -⟩ := hold p ho
      rw [hfree p h.1 h.2] at hentry
      cases hentry

/-- The pages that growing asks for, when no 32-bit sum wraps around. -/
theorem mem_pageLoop_grow {q : ℕ} (hlt : page oldLen < page newLen) :
    q ∈ pageLoop (page addr + page oldLen) (page newLen - page oldLen) ↔
      page addr + page oldLen ≤ q ∧ q < page addr + page newLen := by
  have hmax : memPages = 2 ^ 20 := by decide
  have haddr := World.page_lt addr
  have hnew := World.page_lt newLen
  have hcount : (page addr + page oldLen + (page newLen - page oldLen)) % 2 ^ 32 -
      (page addr + page oldLen) = page newLen - page oldLen := by
    omega
  rw [pageLoop, hcount, List.mem_range'_1]
  omega

/-- A page in the way is an error, and ends the loop that looks for one. -/
theorem resizes_growFrom_of_mapped {ptFlags : Flags} (hw : w.Wf)
    (hlt : page oldLen < page newLen) (hge : page addr + page oldLen ≤ p)
    (hp : p < page addr + page newLen) (hsome : (w.memPt m p).isSome) :
    Resizes host m w addr oldLen newLen (growFrom addr (page oldLen) (page newLen) ptFlags) := by
  have hmem := (@mem_pageLoop_grow addr oldLen newLen p hlt).mpr ⟨hge, hp⟩
  rw [growFrom, resizes_ptIsHole]
  refine ⟨fun q hq ↦ ?_, ?_⟩
  · obtain ⟨entry, hentry⟩ := Option.isSome_iff_exists.mp hsome
    have hle := upTo_le List.pairwise_lt_range' hmem hsome hq
    exact hle.trans_lt (hw.inRange hentry).2
  · have hall : ((pageLoop (page addr + page oldLen) (page newLen - page oldLen)).all
        fun p ↦ (w.memPt m p).isNone) = false :=
      List.all_eq_false.mpr ⟨p, hmem, by simpa [Option.isSome_iff_ne_none] using hsome⟩
    rw [hall]
    exact resizes_error

theorem resizes_ptMapNothing {n : ℕ} {ptFlags : Flags} {err : ℤ} (hne : n ≠ 0)
    (hpages : ∀ q ∈ mappedPages host start n, q < memPages)
    (hmap : mapPages host w m start n (fun _ ↦ 0) (ptFlags ||| pAnon) = (w', err)) :
    Resizes host m w addr oldLen newLen (do
      let err ← ptMapNothing start n ptFlags
      return if err < 0 then .error err else .ok addr) ↔
      Outcome m addr oldLen newLen w w' (if err < 0 then .error err else .ok addr) := by
  refine resizes_iff_of_run (Prog.always_bind.mpr ⟨Prog.always_perform.mpr ?_, ?_⟩) ?_
  · rwa [LooksInside, PtOp.pages, if_neg hne]
  · exact fun _ _ _ ↦ trivial
  · rw [run_ptMapNothing, mapNothing, if_neg hne, hmap]
    rfl

/-- Where nothing is in the way, the pages of the longer range are looked up,
and mapped if the host has memory. -/
theorem resizes_growFrom_of_free {ptFlags : Flags} (hw : w.Wf) (hm : m < w.nextMem)
    (ha : pgOffset addr = 0) (hlt : page oldLen < page newLen) (hold : OldMapped m w addr oldLen)
    (hfree : ∀ p, page addr + page oldLen ≤ p → p < page addr + page newLen →
      w.memPt m p = none) :
    Resizes host m w addr oldLen newLen (growFrom addr (page oldLen) (page newLen) ptFlags) ↔
      page addr + page newLen ≤ memPages ∧ (host.noMemory = true ∨ LastMapped m w addr newLen) := by
  have hmax : memPages = 2 ^ 20 := by decide
  have hnew := World.page_lt newLen
  have hsum : page addr + page oldLen + (page newLen - page oldLen) = page addr + page newLen := by
    omega
  have hnone (q : ℕ) (hq : q ∈ pageLoop (page addr + page oldLen) (page newLen - page oldLen)) :
      w.memPt m q = none := by
    obtain ⟨hge, hq⟩ := (mem_pageLoop_grow hlt).mp hq
    exact hfree q hge hq
  have hall : ((pageLoop (page addr + page oldLen) (page newLen - page oldLen)).all
      fun p ↦ (w.memPt m p).isNone) = true :=
    List.all_eq_true.mpr fun q hq ↦ by rw [hnone q hq]; rfl
  have hloop : (∀ q ∈ pageLoop (page addr + page oldLen) (page newLen - page oldLen),
      q < memPages) ↔ page addr + page newLen ≤ memPages := by
    refine ⟨fun h ↦ ?_, fun h q hq ↦ ((mem_pageLoop_grow hlt).mp hq).2.trans_le h⟩
    have hlast := h (page addr + page newLen - 1) ((mem_pageLoop_grow hlt).mpr ⟨by omega, by omega⟩)
    omega
  rw [growFrom, resizes_ptIsHole, upTo_of_none fun q hq ↦ by rw [hnone q hq]; rfl, hloop, hall]
  refine and_congr_right fun hend ↦ ?_
  have hne : page newLen - page oldLen ≠ 0 := by omega
  rw [if_neg (by decide)]
  cases hhost : host.noMemory with
  | true =>
    have hmap : mapPages host w m (page addr + page oldLen) (page newLen - page oldLen) (fun _ ↦ 0)
        (ptFlags ||| pAnon) = (w, eNomem) := by
      rw [mapPages, hhost, if_pos rfl]
    refine iff_of_true ((resizes_ptMapNothing hne (fun q hq ↦ ?_) hmap).mpr rfl) (.inl rfl)
    exact (mem_mappedPages hq).trans_le (hsum ▸ hend)
  | false =>
    have hsize : (page newLen - page oldLen) * pageSize % 2 ^ 32 ≠ 0 := by
      simp only [pageSize]
      omega
    obtain ⟨w', hmap, hw', hf, hin, hout⟩ := @mapPages_spec host m (page addr + page oldLen) w
      (page newLen - page oldLen) (page newLen - page oldLen) (fun _ ↦ 0) (ptFlags ||| pAnon) hw hm
      hhost hsize (by omega) (hsum ▸ hend)
    rw [hsum] at hin hout
    refine (resizes_ptMapNothing hne (fun q hq ↦ ?_) hmap).trans ((imp_iff_right rfl).trans ?_)
    · exact (mem_mappedPages hq).trans_le (hsum ▸ hend)
    · refine (resized_grow_iff hw ha hold hf hw' hin hout hfree).trans ?_
      exact (or_iff_right Bool.false_ne_true).symm

theorem resizes_mremapGrow_iff (hw : w.Wf) (hm : m < w.nextMem) (ha : pgOffset addr = 0)
    (hlt : page oldLen < page newLen) (hold : OldMapped m w addr oldLen) :
    Resizes host m w addr oldLen newLen (mremapGrow addr (page oldLen) (page newLen)) ↔
      GrowRefused m w addr oldLen newLen ∨
        page addr + page newLen ≤ memPages ∧
          (host.noMemory = true ∨ LastMapped m w addr newLen) := by
  unfold GrowRefused
  rw [mremapGrow, resizes_memPt, and_iff_right (World.page_lt addr)]
  cases hentry : w.memPt m (page addr) with
  | none => exact iff_of_true resizes_error (.inl (.inl rfl))
  | some entry =>
    refine (resizes_checkOld hw fun q hq ↦ ?_).trans ?_
    · obtain ⟨hge, hq⟩ := List.mem_range'_1.mp hq
      exact hold.isSome hge hq
    · cases hanon : has entry.flags pAnon with
      | false => exact iff_of_true resizes_error (.inl (.inl (by simp [hanon])))
      | true =>
        rw [if_neg (by decide)]
        change Resizes host m w addr oldLen newLen
          (growFrom addr (page oldLen) (page newLen) entry.flags) ↔ _
        by_cases hmapped : ∃ p, page addr + page oldLen ≤ p ∧ p < page addr + page newLen ∧
            (w.memPt m p).isSome
        · refine iff_of_true ?_ (.inl (.inr hmapped))
          obtain ⟨p, hge, hp, hsome⟩ := hmapped
          exact resizes_growFrom_of_mapped hw hlt hge hp hsome
        · refine (resizes_growFrom_of_free hw hm ha hlt hold fun p hge hp ↦ ?_).trans ?_
          · by_contra hne
            exact hmapped ⟨p, hge, hp, Option.isSome_iff_ne_none.mpr hne⟩
          · refine (or_iff_right ?_).symm
            rintro (hfirst | hmap)
            · simp [hanon] at hfirst
            · exact hmapped hmap

/-- When `mremap` resizes a mapping of anonymous pages: the part of a page at
the end of the new range is mapped and not unmapped, and the range to grow into
is refused or in the address space. -/
theorem mremap_resizes_iff (h : Reaches World.step (fun _ _ ↦ True) World.init w) (hm : w.inUse m)
    (ha : pgOffset addr = 0) (hold : OldMapped m w addr oldLen) :
    Resizes host m w addr oldLen newLen (sysMremap addr oldLen newLen flags) ↔
      MremapFits host m w addr oldLen newLen flags := by
  have hw := World.wf_of_reaches h
  unfold MremapFits
  rw [sysMremap, if_neg (not_not.mpr ha)]
  by_cases hflags : has flags (~~~(mremapMaymove ||| mremapFixed))
  · rw [if_pos hflags]
    exact iff_of_true resizes_error (.inl hflags)
  by_cases hfixed : has flags mremapFixed
  · rw [if_neg hflags, if_pos hfixed]
    exact iff_of_true resizes_error (.inr (.inl hfixed))
  rw [if_neg hflags, if_neg hfixed, or_iff_right hflags, or_iff_right hfixed]
  by_cases hle : page newLen ≤ page oldLen
  · rw [if_pos hle, if_pos hle]
    exact resizes_shrink_iff hw ha hle hold
  · rw [if_neg hle, if_neg hle]
    exact resizes_mremapGrow_iff hw hm.1 ha (Nat.lt_of_not_le hle) hold

theorem twoPageHeap_old (p : ℕ) (h : Covers 0x8000000 0x2000 p) :
    ∃ entry, twoPageHeap.memPt 0 p = some entry ∧ has entry.flags pAnon := by
  have hlo : 0x8000 ≤ p := h.1
  have hhi : p < 0x8002 := h.2
  obtain rfl | rfl : p = 0x8000 ∨ p = 0x8001 := by omega
  all_goals exact ⟨_, rfl, rfl⟩

theorem mremap_grows_one_page :
    Resizes sampleHost 0 twoPageHeap 0x8000000 0x2000 0x3000
      (sysMremap 0x8000000 0x2000 0x3000 mremapMaymove) :=
  (mremap_resizes_iff twoPageHeap_reaches (by decide) (by decide) twoPageHeap_old).mpr
    (.inr (.inr (.inr ⟨by decide, .inr (.inl (by decide))⟩)))

/-- Shrinking two pages to one and a half unmaps the half that stays, and
growing them by half a page leaves it without memory. -/
theorem mremap_drops_half_page :
    Reaches World.step (fun _ _ ↦ True) World.init twoPageHeap ∧ twoPageHeap.inUse 0 ∧
    pgOffset 0x8000000 = 0 ∧ OldMapped 0 twoPageHeap 0x8000000 0x2000 ∧
    ¬Resizes sampleHost 0 twoPageHeap 0x8000000 0x2000 0x1800
      (sysMremap 0x8000000 0x2000 0x1800 0) ∧
    ¬Resizes sampleHost 0 twoPageHeap 0x8000000 0x2000 0x2800
      (sysMremap 0x8000000 0x2000 0x2800 0) := by
  have hw := World.wf_of_reaches twoPageHeap_reaches
  refine ⟨twoPageHeap_reaches, by decide, by decide, twoPageHeap_old, fun h ↦ ?_, fun h ↦ ?_⟩
  · exact absurd ((resizes_shrink_iff hw (by decide) (by decide) twoPageHeap_old).mp h).2 (by decide)
  · obtain h | h := ((resizes_shrink_iff hw (by decide) (by decide) twoPageHeap_old).mp h).1
    · exact absurd h (by decide)
    · exact absurd h (by decide)

end Isl.Kernel.Mmap
