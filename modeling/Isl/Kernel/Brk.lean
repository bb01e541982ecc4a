import Isl.Emu.MemoryRefs
import Isl.Kernel.Mmap

/-!
The heap under `sys_brk`. The pages of the heap are those from the first break
up to the current one, both rounded up. Growing maps the pages that are new;
shrinking passes the number of the old last page as a count of pages.
-/

namespace Isl.Kernel.Mmap

open Isl.Lib Isl.Lib.Run Isl.Emu Isl.Emu.Memory

variable {host : Host} {m m' p p' start pages : ℕ} {w w' : World} {startBrk brk newBrk : Addr}

/-- A page count rounded up, as a number. -/
def pageCeil (a : Addr) : ℕ := (a.toNat + (pageSize - 1)) / pageSize

def InHeap (startBrk brk : Addr) (p : ℕ) : Prop := pageCeil startBrk ≤ p ∧ p < pageCeil brk

/-- The byte that is mapped at an address. -/
def byteAt (w : World) (m : ℕ) (addr : Addr) : Option Byte :=
  (w.memPt m (page addr)).bind fun e ↦ w.hostRead (w.entryPtr e (pgOffset addr))

/-- A page that has the entry and the memory it had. -/
def Keeps (w w' : World) (m p : ℕ) : Prop :=
  w'.memPt m p = w.memPt m p ∧ ∀ e ∈ w.memPt m p, w'.entryPtr e 0 = w.entryPtr e 0

/-- What the heap is after a call that succeeds. -/
structure Moved (m : ℕ) (startBrk brk newBrk : Addr) (w w' : World) (brk' : Addr) : Prop where
  stored : brk' = newBrk
  mapped : ∀ p, InHeap startBrk brk p ∨ InHeap startBrk newBrk p →
    ((w'.memPt m p).isSome ↔ InHeap startBrk newBrk p)
  bytes : ∀ addr, addr < brk → addr < newBrk → byteAt w' m addr = byteAt w m addr
  others : ∀ p, ¬InHeap startBrk brk p → ¬InHeap startBrk newBrk p → Keeps w w' m p

/-- The call has a defined effect: it looks up pages of the address space only. -/
def BrkDefined (host : Host) (m : ℕ) (w : World) (startBrk brk newBrk : Addr) : Prop :=
  (sysBrk startBrk brk newBrk).Always (pt host m) (fun w op ↦ ∀ p ∈ op.pages host m w, p < memPages) w

/-- A success moves the heap, a failure leaves it as it was. -/
def Meets (m : ℕ) (startBrk brk newBrk : Addr) (w w' : World) (brk' : Addr) :
    Except ℤ Addr → Prop
  | .ok _ => newBrk ≠ 0 → Moved m startBrk brk newBrk w w' brk'
  | .error _ => w'.memPt m = w.memPt m ∧ brk' = brk

def MovesHeap (host : Host) (m : ℕ) (w : World) (startBrk brk newBrk : Addr) : Prop :=
  BrkDefined host m w startBrk brk newBrk ∧ ∃ r brk' w',
    (sysBrk startBrk brk newBrk).run (pt host m) w = some ((r, brk'), w') ∧
    Meets m startBrk brk newBrk w w' brk' r

theorem pageRoundUp_eq {a : Addr} (h : a ≠ 0) : pageRoundUp a = pageCeil a := by
  have hpos : a.toNat ≠ 0 := fun hz ↦ h (BitVec.eq_of_toNat_eq hz)
  rw [pageRoundUp_of_ne_zero h, pageCeil]
  simp only [pageSize]
  omega

theorem pageCeil_mono {a b : Addr} (h : a ≤ b) : pageCeil a ≤ pageCeil b :=
  Nat.div_le_div_right (Nat.add_le_add_right h _)

/-- The addresses below a break are in pages below its end. -/
theorem page_lt_pageCeil {addr a : Addr} (h : addr < a) : page addr < pageCeil a := by
  have hlt : addr.toNat < a.toNat := h
  simp only [page, pageCeil, pageSize]
  omega

theorem page_le_pageCeil (a : Addr) : page a ≤ pageCeil a ∧ pageCeil a ≤ page a + 1 := by
  simp only [page, pageCeil, pageSize]
  omega

/-! Pages that a call leaves alone. -/

theorem keeps_of_frame (hf : World.Frame m w.nextData w.nextBlock w w') (hw : w.Wf) (hw' : w'.Wf)
    (h : w'.memPt m p = w.memPt m p) : Keeps w w' m p := by
  refine ⟨h, fun e he ↦ ?_⟩
  exact hf.keepsBlocks.entryPtr hw hw' he (h.trans he) 0

theorem byteAt_of_frame {addr : Addr} (hf : World.Frame m w.nextData w.nextBlock w w') (hw : w.Wf)
    (hw' : w'.Wf) (h : w'.memPt m (page addr) = w.memPt m (page addr)) :
    byteAt w' m addr = byteAt w m addr := by
  unfold byteAt
  rw [h]
  cases he : w.memPt m (page addr) with
  | none => rfl
  | some e =>
    have hptr := hf.keepsBlocks.entryPtr hw hw' he (h.trans he) (pgOffset addr)
    have hlive := hw.live_entryPtr he (pgOffset addr)
    have hlive' := hw'.live_entryPtr (h.trans he) (pgOffset addr)
    rw [hptr] at hlive'
    simp only [Option.bind_some, World.hostRead, hptr, hlive, hlive', if_true]
    rw [hf.byte _ (hw.entryPtr_lt he _)]

section

variable (hf : World.Frame m w.nextData w.nextBlock w w') (hw : w.Wf) (hw' : w'.Wf)
  (hheap : ∀ p, InHeap startBrk brk p → (w.memPt m p).isSome)

include hf hw hw'

/-- A call that changes pages from the end of the lower heap on only. -/
theorem moved_of_pages {brk' : Addr} (hbrk : brk' = newBrk)
    (hmapped : ∀ p, InHeap startBrk brk p ∨ InHeap startBrk newBrk p →
      ((w'.memPt m p).isSome ↔ InHeap startBrk newBrk p))
    (hkept : ∀ p, p < pageCeil brk → p < pageCeil newBrk → w'.memPt m p = w.memPt m p)
    (hothers : ∀ p, ¬InHeap startBrk brk p → ¬InHeap startBrk newBrk p →
      w'.memPt m p = w.memPt m p) : Moved m startBrk brk newBrk w w' brk' where
  stored := hbrk
  mapped := hmapped
  bytes _ hb hn :=
    byteAt_of_frame hf hw hw' (hkept _ (page_lt_pageCeil hb) (page_lt_pageCeil hn))
  others p ho hn := keeps_of_frame hf hw hw' (hothers p ho hn)

include hheap

/-- Growing, when the pages that are new get mapped. -/
theorem moved_grow (hle : startBrk ≤ brk) (hlt : brk < newBrk)
    (hin : ∀ p, pageCeil brk ≤ p → p < pageCeil newBrk → (w'.memPt m p).isSome)
    (hout : ∀ p, ¬(pageCeil brk ≤ p ∧ p < pageCeil newBrk) → w'.memPt m p = w.memPt m p) :
    Moved m startBrk brk newBrk w w' newBrk := by
  have hs := pageCeil_mono hle
  have hn := pageCeil_mono (BitVec.le_of_lt hlt)
  refine moved_of_pages hf hw hw' rfl (fun p hp ↦ ?_) (fun p hb _ ↦ hout p (by omega))
    fun p ho hnew ↦ hout p fun h ↦ hnew ⟨hs.trans h.1, h.2⟩
  have hnew : InHeap startBrk newBrk p := by
    unfold InHeap at hp ⊢
    omega
  refine iff_of_true ?_ hnew
  by_cases hb : pageCeil brk ≤ p
  · exact hin p hb hnew.2
  · rw [hout p fun h ↦ hb h.1]
    exact hheap p ⟨hnew.1, Nat.lt_of_not_le hb⟩

/-- Shrinking, when the pages of a range get unmapped. -/
theorem moved_shrink_iff {lo hi : ℕ} (hle : startBrk ≤ newBrk) (hlt : newBrk < brk)
    (hin : ∀ p, lo ≤ p → p < hi → w'.memPt m p = none)
    (hout : ∀ p, ¬(lo ≤ p ∧ p < hi) → w'.memPt m p = w.memPt m p)
    (hlo : lo ≤ pageCeil newBrk) :
    Moved m startBrk brk newBrk w w' newBrk ↔
      (∀ p, lo ≤ p → p < hi → (w.memPt m p).isSome → pageCeil newBrk ≤ p ∧ p < pageCeil brk) ∧
      (pageCeil newBrk < pageCeil brk → pageCeil brk ≤ hi) := by
  have hs := pageCeil_mono hle
  have hn := pageCeil_mono (BitVec.le_of_lt hlt)
  constructor
  · intro h
    refine ⟨fun p hl hh hp ↦ ?_, fun hne ↦ ?_⟩
    · have hgone : ¬(w'.memPt m p).isSome := by simp [hin p hl hh]
      by_contra hnot
      by_cases hnew : InHeap startBrk newBrk p
      · exact hgone ((h.mapped p (.inr hnew)).mpr hnew)
      · refine hgone ?_
        rw [(h.others p (fun ho ↦ ?_) hnew).1]
        · exact hp
        · unfold InHeap at hnew ho
          omega
    · -- the last page of the heap has to go
      have hold : InHeap startBrk brk (pageCeil brk - 1) := ⟨by omega, by omega⟩
      have hnew : ¬InHeap startBrk newBrk (pageCeil brk - 1) := fun hnew ↦ by
        have hlast := hnew.2
        omega
      by_contra hhi
      refine hnew ((h.mapped _ (.inl hold)).mp ?_)
      rw [hout _ (by omega)]
      exact hheap _ hold
  · rintro ⟨hlost, hcover⟩
    have hsame (p : ℕ) (hp : ¬(pageCeil newBrk ≤ p ∧ p < pageCeil brk)) :
        w'.memPt m p = w.memPt m p := by
      by_cases hr : lo ≤ p ∧ p < hi
      · rw [hin p hr.1 hr.2]
        refine (Option.not_isSome_iff_eq_none.mp fun hsome ↦ hp ?_).symm
        exact hlost p hr.1 hr.2 hsome
      · exact hout p hr
    refine moved_of_pages hf hw hw' rfl (fun p hp ↦ ?_) (fun p _ hnew ↦ hsame p (by omega))
      fun p ho _ ↦ hsame p fun hr ↦ ho ⟨hs.trans hr.1, hr.2⟩
    have hold : InHeap startBrk brk p := hp.elim id fun hnew ↦ ⟨hnew.1, hnew.2.trans_le hn⟩
    by_cases hnew : p < pageCeil newBrk
    · refine iff_of_true ?_ ⟨hold.1, hnew⟩
      rw [hsame p (by omega)]
      exact hheap p hold
    · have hge := Nat.le_of_not_lt hnew
      have hhi := hcover (hge.trans_lt hold.2)
      refine iff_of_false ?_ fun h ↦ hnew h.2
      simp [hin p (hlo.trans hge) (hold.2.trans_le hhi)]

end

/-! The runs. -/

theorem memPt_foldl_ptUnmapPage (n from_ : ℕ) (w : World) :
    ((List.range' from_ n).foldl (World.ptUnmapPage · m ·) w).memPt m' p' =
      if m' = m ∧ from_ ≤ p' ∧ p' < from_ + n then none else w.memPt m' p' := by
  induction n generalizing w from_ with
  | zero =>
    rw [if_neg (by omega)]
    rfl
  | succ n ih =>
    rw [List.range'_succ, List.foldl_cons, ih, World.memPt_ptUnmapPage]
    have hiff : m' = m ∧ from_ ≤ p' ∧ p' < from_ + (n + 1) ↔
        (m' = m ∧ from_ + 1 ≤ p' ∧ p' < from_ + 1 + n) ∨ (m' = m ∧ p' = from_) := by
      omega
    rw [← ite_or, if_congr hiff rfl rfl]

theorem memPt_ptUnmap_force (w : World) (start n p : ℕ) : (w.ptUnmap m start n true).1.memPt m p =
    if start ≤ p ∧ p < start + n then none else w.memPt m p := by
  have h := @memPt_foldl_ptUnmapPage m m p n start w
  simp only [true_and] at h
  simpa [World.ptUnmap] using h

/-- A mapping of the host's for the pages of a loop. -/
theorem mapPages_spec {n count : ℕ} {c : ℤ → Byte} {flags : Flags} (hw : w.Wf) (hm : m < w.nextMem)
    (hhost : host.noMemory = false) (hsize : n * pageSize % 2 ^ 32 ≠ 0)
    (hcount : (start + n) % 2 ^ 32 - start = count) (hle : start + count ≤ memPages) :
    ∃ w', mapPages host w m start n c flags = (w', 0) ∧ w'.Wf ∧
      World.Frame m w.nextData w.nextBlock w w' ∧
      (∀ p, start ≤ p → p < start + count → (w'.memPt m p).isSome) ∧
      ∀ p, ¬(start ≤ p ∧ p < start + count) → w'.memPt m p = w.memPt m p := by
  have hframe : World.Frame m w.nextData w.nextBlock w
      (w.mmap (n * pageSize % 2 ^ 32) c).2 := World.mmap_frame le_rfl _ _
  have hwf := hw.mmap (n * pageSize % 2 ^ 32) c
  obtain ⟨w₁, hmmap, hpt, hmem, hdata, hnext, hblock, hlive⟩ : ∃ w₁,
      w.mmap (n * pageSize % 2 ^ 32) c = (some w.nextBlock, w₁) ∧
      w₁.memPt = w.memPt ∧ w₁.nextMem = w.nextMem ∧ w₁.data = w.data ∧
      w₁.nextData = w.nextData ∧ w.nextBlock < w₁.nextBlock ∧ w₁.live w.nextBlock = true :=
    ⟨_, World.mmap_eq hsize, rfl, rfl, rfl, rfl, Nat.lt_succ_self _, Function.update_self _ _ _⟩
  rw [hmmap] at hframe hwf
  have hfree : ∀ d x, w₁.data d = some x → x.data ≠ w.nextBlock := fun d x hx ↦
    Nat.ne_of_lt (hw.blockLt (hdata ▸ hx))
  refine ⟨(w₁.ptMap m start count (some w.nextBlock) flags).1, ?_, ?_, ?_, fun p h₁ h₂ ↦ ?_,
    fun p hp ↦ ?_⟩
  · rw [mapPages, hhost, hcount]
    dsimp only
    rw [hmmap]
    rfl
  · exact hwf.ptMap m start count flags (hmem ▸ hm) hle hblock hlive hfree
  · exact hframe.trans (World.ptMap_frame hnext.ge _ _ _ _)
  · rw [World.memPt_ptMap, if_pos ⟨rfl, h₁, h₂⟩]
    rfl
  · rw [World.memPt_ptMap, if_neg fun h ↦ hp h.2, hpt]

theorem run_ptMapNothing {α : Type} {f : ℤ → Call α} {flags : Flags} :
    (ptMapNothing start pages flags >>= f).run (pt host m) w =
      (f (mapNothing host w m start pages flags).2).run (pt host m)
        (mapNothing host w m start pages flags).1 :=
  Prog.run_perform_bind

theorem run_ptUnmap {α : Type} {f : ℤ → Call α} {force : Bool} :
    (ptUnmap start pages force >>= f).run (pt host m) w =
      (f (w.ptUnmap m start ((start + pages) % 2 ^ 32 - start) force).2).run (pt host m)
        (w.ptUnmap m start ((start + pages) % 2 ^ 32 - start) force).1 :=
  Prog.run_perform_bind

/-- Growing: nothing to map, no memory, or the pages of the loop get mapped. -/
theorem run_grow {n count : ℕ} (hw : w.Wf) (hm : m < w.nextMem)
    (hsize : n ≠ 0 → n * pageSize % 2 ^ 32 ≠ 0)
    (hcount : (start + n) % 2 ^ 32 - start = count) (hle : start + count ≤ memPages) :
    ∃ r brk' w', (do
      let err ← ptMapNothing start n pWrite
      return if err < 0 then (.error err, brk) else (.ok newBrk, newBrk) :
        Call (Except ℤ Addr × Addr)).run (pt host m) w = some ((r, brk'), w') ∧
      ((n = 0 ∧ r = .ok newBrk ∧ brk' = newBrk ∧ w' = w) ∨
        (n ≠ 0 ∧ host.noMemory = true ∧ r = .error eNomem ∧ brk' = brk ∧ w' = w) ∨
        (n ≠ 0 ∧ host.noMemory = false ∧ r = .ok newBrk ∧ brk' = newBrk ∧ w'.Wf ∧
          World.Frame m w.nextData w.nextBlock w w' ∧
          (∀ p, start ≤ p → p < start + count → (w'.memPt m p).isSome) ∧
          ∀ p, ¬(start ≤ p ∧ p < start + count) → w'.memPt m p = w.memPt m p)) := by
  by_cases hn : n = 0
  · refine ⟨_, _, _, ?_, .inl ⟨hn, rfl, rfl, rfl⟩⟩
    rw [run_ptMapNothing, mapNothing, if_pos hn]
    rfl
  cases hhost : host.noMemory with
  | true =>
    refine ⟨_, _, _, ?_, .inr (.inl ⟨hn, rfl, rfl, rfl, rfl⟩)⟩
    rw [run_ptMapNothing, mapNothing, if_neg hn, mapPages, hhost]
    rfl
  | false =>
    obtain ⟨w', hmap, hspec⟩ := @mapPages_spec host m start w n count (fun _ ↦ 0)
      (pWrite ||| pAnon) hw hm hhost (hsize hn) hcount hle
    refine ⟨_, _, w', ?_, .inr (.inr ⟨hn, rfl, rfl, rfl, hspec⟩)⟩
    rw [run_ptMapNothing, mapNothing, if_neg hn, hmap]
    rfl

/-! Growing. -/

/-- The pages that growing asks for. -/
def growPages (brk newBrk : Addr) : ℕ := (pageRoundUp newBrk + 2 ^ 32 - pageRoundUp brk) % 2 ^ 32

theorem sysBrk_grow (hs : ¬newBrk < startBrk) (hlt : brk < newBrk) : sysBrk startBrk brk newBrk = do
    let err ← ptMapNothing (pageRoundUp brk) (growPages brk newBrk) pWrite
    return if err < 0 then (.error err, brk) else (.ok newBrk, newBrk) := by
  have hnew : newBrk ≠ 0 := by
    rintro rfl
    exact absurd hlt (Nat.not_lt_zero _)
  rw [sysBrk, if_neg fun h ↦ hs h.2, if_neg hnew, if_pos hlt]
  rfl

theorem pageCeil_le (a : Addr) (h : a ≠ 0) : pageCeil a ≤ memPages :=
  pageRoundUp_eq h ▸ pageRoundUp_le a

theorem pageCeil_pos {a : Addr} (h : a ≠ 0) : 0 < pageCeil a := by
  have hpos : a.toNat ≠ 0 := fun hz ↦ h (BitVec.eq_of_toNat_eq hz)
  simp only [pageCeil, pageSize]
  omega

/-- How far the loop that maps the new pages goes. -/
theorem grow_count (hlt : brk < newBrk) :
    (pageRoundUp brk + growPages brk newBrk) % 2 ^ 32 - pageRoundUp brk =
      if brk = 0 then 0 else pageCeil newBrk - pageCeil brk := by
  have hmax : memPages = 2 ^ 20 := by decide
  have hnew : newBrk ≠ 0 := by
    rintro rfl
    exact absurd hlt (Nat.not_lt_zero _)
  have hle := pageCeil_le newBrk hnew
  unfold growPages
  rw [pageRoundUp_eq hnew]
  split
  · rename_i hzero
    rw [hzero, pageRoundUp_zero]
    omega
  · rename_i hzero
    have hmono := pageCeil_mono (BitVec.le_of_lt hlt)
    rw [pageRoundUp_eq hzero]
    omega

theorem grow_size (hlt : brk < newBrk) (h : growPages brk newBrk ≠ 0) :
    growPages brk newBrk * pageSize % 2 ^ 32 ≠ 0 := by
  have hmax : memPages = 2 ^ 20 := by decide
  have hnew : newBrk ≠ 0 := by
    rintro rfl
    exact absurd hlt (Nat.not_lt_zero _)
  have hle := pageCeil_le newBrk hnew
  have hpos := pageCeil_pos hnew
  have hbrk := pageRoundUp_le brk
  have hbpos : 0 < pageRoundUp brk := Nat.succ_pos _
  unfold growPages at h ⊢
  rw [pageRoundUp_eq hnew] at h ⊢
  simp only [pageSize]
  omega

theorem growPages_zero_iff (hnew : newBrk ≠ 0) :
    growPages 0 newBrk = 0 ↔ pageCeil newBrk = memPages := by
  have hmax : memPages = 2 ^ 20 := by decide
  have hle := pageCeil_le newBrk hnew
  have hpos := pageCeil_pos hnew
  rw [growPages, pageRoundUp_eq hnew, pageRoundUp_zero]
  omega

/-- A call that leaves the page table as it is, when the heap starts at zero. -/
theorem moved_zero_iff (hf : World.Frame m w.nextData w.nextBlock w w') (hw : w.Wf) (hw' : w'.Wf)
    (hsame : ∀ p, w'.memPt m p = w.memPt m p) :
    Moved m 0 0 newBrk w w' newBrk ↔ ∀ p < pageCeil newBrk, (w.memPt m p).isSome := by
  constructor
  · intro h p hp
    have hnew : InHeap 0 newBrk p := ⟨Nat.zero_le p, hp⟩
    rw [← hsame]
    exact (h.mapped p (.inr hnew)).mpr hnew
  · intro h
    refine moved_of_pages hf hw hw' rfl (fun p hp ↦ ?_) (fun p _ _ ↦ hsame p) fun p _ _ ↦ hsame p
    have hnew : InHeap 0 newBrk p := hp.resolve_left fun ho ↦ absurd ho.2 (Nat.not_lt_zero p)
    refine iff_of_true ?_ hnew
    rw [hsame]
    exact h p hnew.2

theorem movesHeap_iff_of_run {r : Except ℤ Addr} {brk' : Addr}
    (hd : BrkDefined host m w startBrk brk newBrk)
    (hrun : (sysBrk startBrk brk newBrk).run (pt host m) w = some ((r, brk'), w')) :
    MovesHeap host m w startBrk brk newBrk ↔ Meets m startBrk brk newBrk w w' brk' r := by
  refine ⟨fun h ↦ ?_, fun h ↦ ⟨hd, r, brk', w', hrun, h⟩⟩
  obtain ⟨-, r₂, brk₂, w₂, hrun₂, h⟩ := h
  cases hrun.symm.trans hrun₂
  exact h

/-- Growing from zero maps nothing: the macro takes the old break for the end
of the address space. -/
def GrowFits (host : Host) (m : ℕ) (w : World) (brk newBrk : Addr) : Prop :=
  brk ≠ 0 ∨ (host.noMemory = true ∧ pageCeil newBrk ≠ memPages) ∨
    ∀ p < pageCeil newBrk, (w.memPt m p).isSome

theorem growFits_of_ne_zero (h : brk ≠ 0) : GrowFits host m w brk newBrk := .inl h

theorem growFits_zero_iff (h : host.noMemory = true → pageCeil newBrk = memPages) :
    GrowFits host m w 0 newBrk ↔ ∀ p < pageCeil newBrk, (w.memPt m p).isSome := by
  unfold GrowFits
  refine (or_iff_right fun hne ↦ hne rfl).trans (or_iff_right fun hmem ↦ hmem.2 (h hmem.1))

theorem movesHeap_grow_iff (hw : w.Wf) (hm : m < w.nextMem) (hle : startBrk ≤ brk)
    (hheap : ∀ p, InHeap startBrk brk p → (w.memPt m p).isSome) (hlt : brk < newBrk) :
    MovesHeap host m w startBrk brk newBrk ↔ GrowFits host m w brk newBrk := by
  have hs : ¬newBrk < startBrk := BitVec.not_lt.mpr (BitVec.le_trans hle (BitVec.le_of_lt hlt))
  have hnew : newBrk ≠ 0 := by
    rintro rfl
    exact absurd hlt (Nat.not_lt_zero _)
  have hcount := grow_count hlt
  have hend : pageRoundUp brk + (if brk = 0 then 0 else pageCeil newBrk - pageCeil brk) ≤ memPages := by
    have hmax := pageCeil_le newBrk hnew
    split
    · exact pageRoundUp_le brk
    · rename_i hne
      have hmono := pageCeil_mono (BitVec.le_of_lt hlt)
      rw [pageRoundUp_eq hne]
      omega
  obtain ⟨r, brk', w', hrun, hcases⟩ := @run_grow host m (pageRoundUp brk) w brk newBrk
    (growPages brk newBrk) _ hw hm (grow_size hlt) hcount hend
  rw [← sysBrk_grow hs hlt] at hrun
  have hd : BrkDefined host m w startBrk brk newBrk := by
    rw [BrkDefined, sysBrk_grow hs hlt]
    refine Prog.always_bind.mpr ⟨Prog.always_perform.mpr fun p hp ↦ ?_, fun _ _ _ ↦ trivial⟩
    rw [PtOp.pages] at hp
    split at hp
    · cases hp
    · unfold mappedPages at hp
      split at hp
      · cases hp
      · rw [pageLoop, hcount] at hp
        exact (List.mem_range'_1.mp hp).2.trans_le hend
  refine (movesHeap_iff_of_run hd hrun).trans ?_
  by_cases hzero : brk = 0
  · -- nothing gets mapped
    obtain rfl := hzero
    obtain rfl : startBrk = 0 := BitVec.eq_of_toNat_eq (Nat.le_zero.mp hle)
    obtain ⟨hn, rfl, rfl, rfl⟩ | ⟨hn, hhost, rfl, rfl, rfl⟩ | ⟨hn, hhost, rfl, rfl, hw', hf, -, hout⟩ :=
      hcases
    · refine (imp_iff_right hnew).trans ((moved_zero_iff (.refl _) hw hw fun _ ↦ rfl).trans ?_)
      exact (growFits_zero_iff fun _ ↦ (growPages_zero_iff hnew).mp hn).symm
    · exact iff_of_true ⟨rfl, rfl⟩ (.inr (.inl ⟨hhost, fun h ↦ hn ((growPages_zero_iff hnew).mpr h)⟩))
    · have hsame : ∀ p, w'.memPt m p = w.memPt m p := fun p ↦ hout p (by simp)
      refine (imp_iff_right hnew).trans ((moved_zero_iff hf hw hw' hsame).trans ?_)
      exact (growFits_zero_iff fun h ↦ absurd h (by simp [hhost])).symm
  · refine iff_of_true ?_ (growFits_of_ne_zero hzero)
    rw [if_neg hzero, pageRoundUp_eq hzero] at hcount
    rw [if_neg hzero, pageRoundUp_eq hzero] at hcases
    have hmono := pageCeil_mono (BitVec.le_of_lt hlt)
    obtain ⟨hn, rfl, rfl, rfl⟩ | ⟨hn, hhost, rfl, rfl, rfl⟩ | ⟨hn, hhost, rfl, rfl, hw', hf, hin, hout⟩ :=
      hcases
    · refine fun _ ↦ moved_grow (.refl _) hw hw hheap hle hlt (fun p h₁ h₂ ↦ ?_) fun _ _ ↦ rfl
      rw [hn] at hcount
      have hmod := Nat.mod_le (pageCeil brk + 0) (2 ^ 32)
      omega
    · exact ⟨rfl, rfl⟩
    · exact fun _ ↦ moved_grow hf hw hw' hheap hle hlt (fun p h₁ h₂ ↦ hin p h₁ (by omega))
        fun p hp ↦ hout p (by omega)

/-! Shrinking. -/

/-- What the range of `page brk` pages may hold: the pages of the heap that go,
and all of them. -/
def ShrinkFits (m : ℕ) (w : World) (brk newBrk : Addr) : Prop :=
  page newBrk + page brk ≤ memPages ∧
    (∀ p, page newBrk ≤ p → p < page newBrk + page brk → (w.memPt m p).isSome →
      pageCeil newBrk ≤ p ∧ p < pageCeil brk) ∧
    (pageCeil newBrk < pageCeil brk → pageCeil brk ≤ page newBrk + page brk)

theorem sysBrk_shrink (hs : ¬newBrk < startBrk) (hnew : newBrk ≠ 0) (hlt : newBrk < brk) :
    sysBrk startBrk brk newBrk = do
      let _ ← ptUnmap (page newBrk) (page brk) true
      return (.ok newBrk, newBrk) := by
  have hgrow : ¬newBrk > brk := BitVec.not_lt.mpr (BitVec.le_of_lt hlt)
  rw [sysBrk, if_neg fun h ↦ hs h.2, if_neg hnew, if_neg hgrow, if_pos hlt]

theorem movesHeap_shrink_iff (hw : w.Wf) (hle : startBrk ≤ newBrk) (hnew : newBrk ≠ 0)
    (hheap : ∀ p, InHeap startBrk brk p → (w.memPt m p).isSome) (hlt : newBrk < brk) :
    MovesHeap host m w startBrk brk newBrk ↔ ShrinkFits m w brk newBrk := by
  have hs : ¬newBrk < startBrk := BitVec.not_lt.mpr hle
  have hmax : memPages = 2 ^ 20 := by decide
  have hpage := World.page_lt newBrk
  have hcount : (page newBrk + page brk) % 2 ^ 32 - page newBrk = page brk := by
    have hbrk := World.page_lt brk
    omega
  have hdef : BrkDefined host m w startBrk brk newBrk ↔ page newBrk + page brk ≤ memPages := by
    rw [BrkDefined, sysBrk_shrink hs hnew hlt]
    refine (Prog.always_bind.trans (and_iff_left fun _ _ _ ↦ Prog.always_pure _)).trans
      (Prog.always_perform.trans ?_)
    rw [PtOp.pages, if_pos rfl, pageLoop, hcount]
    refine ⟨fun h ↦ ?_, fun h p hp ↦ (List.mem_range'_1.mp hp).2.trans_le h⟩
    by_contra hout
    have hlast := h (page newBrk + page brk - 1) (List.mem_range'_1.mpr ⟨by omega, by omega⟩)
    omega
  have hrun : (sysBrk startBrk brk newBrk).run (pt host m) w =
      some ((.ok newBrk, newBrk), (w.ptUnmap m (page newBrk) (page brk) true).1) := by
    rw [sysBrk_shrink hs hnew hlt, run_ptUnmap, hcount]
    rfl
  have hmoved := moved_shrink_iff (World.ptUnmap_frame (page newBrk) (page brk) true) hw
    (hw.ptUnmap m _ _ _) hheap hle hlt
    (fun p h₁ h₂ ↦ (memPt_ptUnmap_force w _ _ p).trans (if_pos ⟨h₁, h₂⟩))
    (fun p hp ↦ (memPt_ptUnmap_force w _ _ p).trans (if_neg hp)) (page_le_pageCeil newBrk).1
  constructor
  · intro h
    exact ⟨hdef.mp h.1, hmoved.mp ((movesHeap_iff_of_run h.1 hrun).mp h hnew)⟩
  · intro h
    exact (movesHeap_iff_of_run (hdef.mpr h.1) hrun).mpr fun _ ↦ hmoved.mpr h.2

theorem moved_refl (hw : w.Wf) (hheap : ∀ p, InHeap startBrk brk p → (w.memPt m p).isSome) :
    Moved m startBrk brk brk w w brk :=
  moved_of_pages (.refl _) hw hw rfl (fun p hp ↦ iff_of_true (hheap p (hp.elim id id)) (hp.elim id id))
    (fun _ _ _ ↦ rfl) fun _ _ _ ↦ rfl

/-- When `brk` does what it should: always where it grows, but from zero, and
where it shrinks when the range it unmaps holds the pages that go and no others. -/
theorem brk_movesHeap_iff (h : Reaches World.step (fun _ _ ↦ True) World.init w) (hm : w.inUse m)
    (hle : startBrk ≤ brk) (hheap : ∀ p, InHeap startBrk brk p → (w.memPt m p).isSome) :
    MovesHeap host m w startBrk brk newBrk ↔
      newBrk = 0 ∨ newBrk < startBrk ∨ newBrk = brk ∨
      (brk < newBrk ∧ GrowFits host m w brk newBrk) ∨
      (newBrk < brk ∧ ShrinkFits m w brk newBrk) := by
  have hw := World.wf_of_reaches h
  by_cases hzero : newBrk = 0
  · refine iff_of_true ?_ (.inl hzero)
    have hlow : ¬(newBrk ≠ 0 ∧ newBrk < startBrk) := fun h ↦ h.1 hzero
    have heq : sysBrk startBrk brk newBrk = pure (.ok brk, brk) := by
      rw [sysBrk, if_neg hlow, if_pos hzero]
    rw [MovesHeap, BrkDefined, heq]
    exact ⟨trivial, _, _, _, rfl, fun hne ↦ absurd hzero hne⟩
  by_cases hlow : newBrk < startBrk
  · refine iff_of_true ?_ (.inr (.inl hlow))
    have heq : sysBrk startBrk brk newBrk = pure (.error eInval, brk) := by
      rw [sysBrk, if_pos ⟨hzero, hlow⟩]
    rw [MovesHeap, BrkDefined, heq]
    exact ⟨trivial, _, _, _, rfl, rfl, rfl⟩
  refine Iff.trans ?_ ((or_iff_right hzero).trans (or_iff_right hlow)).symm
  have hs : startBrk ≤ newBrk := BitVec.not_lt.mp hlow
  obtain hlt | heq | hgt := lt_trichotomy newBrk.toNat brk.toNat
  · have hlt : newBrk < brk := hlt
    refine (movesHeap_shrink_iff hw hs hzero hheap hlt).trans ?_
    rw [or_iff_right (BitVec.ne_of_lt hlt), or_iff_right fun h ↦ BitVec.lt_asymm hlt h.1]
    exact (and_iff_right hlt).symm
  · obtain rfl : newBrk = brk := BitVec.eq_of_toNat_eq heq
    refine iff_of_true ?_ (.inl rfl)
    have heq : sysBrk startBrk newBrk newBrk = pure (.ok newBrk, newBrk) := by
      rw [sysBrk, if_neg fun h ↦ hlow h.2, if_neg hzero, if_neg (BitVec.lt_irrefl _),
        if_neg (BitVec.lt_irrefl _)]
    rw [MovesHeap, BrkDefined, heq]
    exact ⟨trivial, _, _, _, rfl, fun _ ↦ moved_refl hw hheap⟩
  · have hgt : brk < newBrk := hgt
    refine (movesHeap_grow_iff hw hm.1 hle hheap hgt).trans ?_
    rw [or_iff_right (BitVec.ne_of_lt hgt).symm, or_iff_left fun h ↦ BitVec.lt_asymm hgt h.1]
    exact (and_iff_right hgt).symm

/-- A heap of two pages, and a page of a library above it. -/
def twoPageHeap : World :=
  ((World.init.memNew.2.ptMapNothing 0 0x8000 2 pWrite).1.ptMapNothing 0 0x9000 1 pRead).1

theorem twoPageHeap_reaches : Reaches World.step (fun _ _ ↦ True) World.init twoPageHeap := by
  refine ((Reaches.start.next (a := .new) trivial rfl).next
    (a := .mapNothing 0 0x8000 2 pWrite) trivial rfl).next
    (a := .mapNothing 0 0x9000 1 pRead) trivial ?_
  rfl

theorem twoPageHeap_heap (p : ℕ) (h : InHeap 0x8000000 0x8002000 p) :
    (twoPageHeap.memPt 0 p).isSome := by
  have hlo : 0x8000 ≤ p := h.1
  have hhi : p < 0x8002 := h.2
  obtain rfl | rfl : p = 0x8000 ∨ p = 0x8001 := by omega
  all_goals decide

theorem brk_grows_two_pages :
    MovesHeap sampleHost 0 twoPageHeap 0x8000000 0x8002000 0x8004000 :=
  (brk_movesHeap_iff twoPageHeap_reaches (by decide) (by decide) twoPageHeap_heap).mpr
    (.inr (.inr (.inr (.inl ⟨by decide, .inl (by decide)⟩))))

/-- Shrinking by one page unmaps the page of the library too, and shrinking by
half a page the page that holds the other half. -/
theorem brk_unmaps_library :
    Reaches World.step (fun _ _ ↦ True) World.init twoPageHeap ∧ twoPageHeap.inUse 0 ∧
    (∀ p, InHeap 0x8000000 0x8002000 p → (twoPageHeap.memPt 0 p).isSome) ∧
    ¬MovesHeap sampleHost 0 twoPageHeap 0x8000000 0x8002000 0x8001000 ∧
    ¬MovesHeap sampleHost 0 twoPageHeap 0x8000000 0x8002000 0x8001800 := by
  have hw := World.wf_of_reaches twoPageHeap_reaches
  refine ⟨twoPageHeap_reaches, by decide, twoPageHeap_heap, fun h ↦ ?_, fun h ↦ ?_⟩
  · have hfits := (movesHeap_shrink_iff hw (by decide) (by decide) twoPageHeap_heap
      (by decide)).mp h
    exact absurd (hfits.2.1 0x9000 (by decide) (by decide) (by decide)) (by decide)
  · have hfits := (movesHeap_shrink_iff hw (by decide) (by decide) twoPageHeap_heap
      (by decide)).mp h
    exact absurd (hfits.2.1 0x8001 (by decide) (by decide) (by decide)) (by decide)

end Isl.Kernel.Mmap
