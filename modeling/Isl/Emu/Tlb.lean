import Isl.Emu.MemoryChanges
import Mathlib.Tactic.IntervalCases

/-! The translation cache of `emu/tlb.c`. -/

namespace Isl.Emu

open Memory

structure TlbEntry where
  page : Addr
  pageIfWritable : Addr
  dataMinusAddr : Ptr
deriving DecidableEq

structure Tlb where
  mem : ℕ
  dirtyPage : Addr
  entries : ℕ → TlbEntry

def tlbPage (addr : Addr) : Addr := addr &&& 0xfffff000#32

def tlbIndex (addr : Addr) : ℕ := (((addr >>> 12) &&& 1023#32) ^^^ (addr >>> 22)).toNat

def tlbPageEmpty : Addr := 1#32

def tlbFlush (tlb : Tlb) : Tlb :=
  { tlb with entries := fun _ ↦ ⟨tlbPageEmpty, tlbPageEmpty, ⟨0, 0⟩⟩ }

def TlbEntry.ptr (entry : TlbEntry) (addr : Addr) : Ptr := entry.dataMinusAddr.add addr.toNat

def tlbHandleMiss (w : World) (tlb : Tlb) (addr : Addr) (type : Access) :
    World × Tlb × Option Ptr :=
  let r := w.memPtr tlb.mem (tlbPage addr) type
  match r.2 with
  | none => (r.1, tlb, none)
  | some ptr =>
    let entry : TlbEntry :=
      { page := tlbPage addr
        -- 1 is not a valid page so this won't look like a hit
        pageIfWritable := if type = .write then tlbPage addr else tlbPageEmpty
        dataMinusAddr := ptr.add (-(tlbPage addr).toNat) }
    (r.1, { tlb with
      dirtyPage := tlbPage addr
      entries := Function.update tlb.entries (tlbIndex addr) entry }, some (entry.ptr addr))

/-- `__tlb_read_ptr`. -/
def tlbReadPtr (w : World) (tlb : Tlb) (addr : Addr) : World × Tlb × Option Ptr :=
  let entry := tlb.entries (tlbIndex addr)
  if entry.page = tlbPage addr then (w, tlb, some (entry.ptr addr))
  else tlbHandleMiss w tlb addr .read

/-- `__tlb_write_ptr`. -/
def tlbWritePtr (w : World) (tlb : Tlb) (addr : Addr) : World × Tlb × Option Ptr :=
  let entry := tlb.entries (tlbIndex addr)
  if entry.pageIfWritable = tlbPage addr then
    (w, { tlb with dirtyPage := tlbPage addr }, some (entry.ptr addr))
  else tlbHandleMiss w tlb addr .write

def nextPage (addr : Addr) : Addr := ((addr >>> 12) + 1) <<< 12

def hostBytes (w : World) (p : Ptr) (size : ℕ) : List Byte :=
  (List.range size).map fun i ↦ w.byte p.block (p.off + i)

def hostCopy (w : World) (p : Ptr) (value : List Byte) : World :=
  ((List.range value.length).zip value).foldl (fun w b ↦ w.hostWrite (p.add b.1) b.2) w

/-- `tlb_read` and `__tlb_read_cross_page`. -/
def tlbRead (w : World) (tlb : Tlb) (addr : Addr) (size : ℕ) :
    World × Tlb × Option (List Byte) :=
  if pgOffset addr > pageSize - size then
    let r₁ := tlbReadPtr w tlb addr
    let r₂ := tlbReadPtr r₁.1 r₁.2.1 (nextPage addr)
    let part1 := pageSize - pgOffset addr
    (r₂.1, r₂.2.1, r₁.2.2.bind fun ptr1 ↦ r₂.2.2.map fun ptr2 ↦
      hostBytes r₂.1 ptr1 part1 ++ hostBytes r₂.1 ptr2 (size - part1))
  else
    let r := tlbReadPtr w tlb addr
    (r.1, r.2.1, r.2.2.map (hostBytes r.1 · size))

/-- `tlb_write` and `__tlb_write_cross_page`. -/
def tlbWrite (w : World) (tlb : Tlb) (addr : Addr) (value : List Byte) : World × Tlb × Bool :=
  if pgOffset addr > pageSize - value.length then
    let r₁ := tlbWritePtr w tlb addr
    let r₂ := tlbWritePtr r₁.1 r₁.2.1 (nextPage addr)
    let part1 := pageSize - pgOffset addr
    match r₁.2.2, r₂.2.2 with
    | some ptr1, some ptr2 =>
      (hostCopy (hostCopy r₂.1 ptr1 (value.take part1)) ptr2 (value.drop part1), r₂.2.1, true)
    | _, _ => (r₂.1, r₂.2.1, false)
  else
    let r := tlbWritePtr w tlb addr
    match r.2.2 with
    | some ptr => (hostCopy r.1 ptr value, r.2.1, true)
    | none => (r.1, r.2.1, false)

/-! Pages and slots. -/

theorem tlbPage_eq (addr : Addr) : tlbPage addr = (addr >>> 12) <<< 12 := by
  ext i hi
  simp only [tlbPage, BitVec.getElem_and, BitVec.getElem_shiftLeft]
  interval_cases i <;> simp [BitVec.getLsbD_eq_getElem]

theorem tlbPage_toNat (addr : Addr) : (tlbPage addr).toNat = page addr * pageSize := by
  have h := addr.isLt
  rw [tlbPage_eq]
  simp only [BitVec.toNat_shiftLeft, BitVec.toNat_ushiftRight, Nat.shiftRight_eq_div_pow,
    Nat.shiftLeft_eq, page, pageSize]
  omega

theorem page_tlbPage (addr : Addr) : page (tlbPage addr) = page addr := by
  rw [page, tlbPage_toNat]
  exact Nat.mul_div_cancel _ (by decide)

theorem pgOffset_tlbPage (addr : Addr) : pgOffset (tlbPage addr) = 0 := by
  rw [pgOffset, tlbPage_toNat]
  exact Nat.mul_mod_left _ _

theorem tlbPage_add_pgOffset (addr : Addr) : (tlbPage addr).toNat + pgOffset addr = addr.toNat := by
  rw [tlbPage_toNat, page, pgOffset, Nat.mul_comm]
  exact Nat.div_add_mod _ _

theorem tlbPage_eq_iff {addr addr' : Addr} : tlbPage addr = tlbPage addr' ↔ page addr = page addr' := by
  constructor
  · intro h
    rw [← page_tlbPage addr, h, page_tlbPage]
  · intro h
    apply BitVec.eq_of_toNat_eq
    rw [tlbPage_toNat, tlbPage_toNat, h]

theorem tlbPage_tlbPage (addr : Addr) : tlbPage (tlbPage addr) = tlbPage addr :=
  tlbPage_eq_iff.mpr (page_tlbPage addr)

theorem shift_tlbPage (addr : Addr) {k : ℕ} (hk : 12 ≤ k) : tlbPage addr >>> k = addr >>> k := by
  apply BitVec.eq_of_toNat_eq
  rw [BitVec.toNat_ushiftRight, BitVec.toNat_ushiftRight, tlbPage_toNat]
  obtain ⟨j, rfl⟩ := Nat.exists_eq_add_of_le hk
  simp only [Nat.shiftRight_add]
  congr 1
  simp only [Nat.shiftRight_eq_div_pow, page, pageSize]
  omega

theorem tlbIndex_tlbPage (addr : Addr) : tlbIndex (tlbPage addr) = tlbIndex addr := by
  simp only [tlbIndex]
  rw [shift_tlbPage _ (by omega), shift_tlbPage _ (by omega)]

theorem tlbPage_ne_empty (addr : Addr) : tlbPage addr ≠ tlbPageEmpty := by
  intro h
  have ho := pgOffset_tlbPage addr
  rw [h] at ho
  exact absurd ho (by decide)

/-! Coherence. -/

variable {w w' : World} {tlb tlb' : Tlb} {m i : ℕ} {t : TlbEntry} {addr : Addr}

/-- The entry is empty, or stands for a page that looks it up in slot `i`. -/
def InSlot (i : ℕ) (t : TlbEntry) : Prop :=
  (t.page = tlbPageEmpty ∧ t.pageIfWritable = tlbPageEmpty) ∨
  (tlbPage t.page = t.page ∧ tlbIndex t.page = i ∧
    (t.pageIfWritable = t.page ∨ t.pageIfWritable = tlbPageEmpty))

/-- The page table has the translation the entry holds. -/
def Backed (w : World) (m : ℕ) (t : TlbEntry) : Prop :=
  ∃ e, w.memPt m (page t.page) = some e ∧
    t.dataMinusAddr = (w.entryPtr e 0).add (-t.page.toNat) ∧
    (t.pageIfWritable = t.page → pWritable e.flags)

def Coherent (w : World) (m : ℕ) (tlb : Tlb) : Prop :=
  ∀ i, (tlb.entries i).page ≠ tlbPageEmpty → Backed w m (tlb.entries i)

theorem tlbFlush_inSlot (tlb : Tlb) (i : ℕ) : InSlot i ((tlbFlush tlb).entries i) :=
  .inl ⟨rfl, rfl⟩

theorem tlbFlush_coherent (w : World) (m : ℕ) (tlb : Tlb) : Coherent w m (tlbFlush tlb) :=
  fun _ h ↦ absurd rfl h

theorem Backed.keep (h : Backed w m t) (hw : w.Wf) (hw' : w'.Wf) (hb : World.KeepsBlocks w w')
    (hk : ∀ e, w.memPt m (page t.page) = some e → w'.memPt m (page t.page) = some e) :
    Backed w' m t := by
  obtain ⟨e, he, hd, hp⟩ := h
  refine ⟨e, hk e he, ?_, hp⟩
  rw [hb.entryPtr hw hw' he (hk e he), hd]

theorem Coherent.keep (h : Coherent w m tlb) (hw : w.Wf) (hw' : w'.Wf)
    (hb : World.KeepsBlocks w w')
    (hk : ∀ p e, w.memPt m p = some e → w'.memPt m p = some e) : Coherent w' m tlb :=
  fun i hi ↦ (h i hi).keep hw hw' hb (hk _)

theorem Backed.ptr (h : Backed w m t) (ht : t.page = tlbPage addr) :
    ∃ e, w.memPt m (page addr) = some e ∧ t.ptr addr = w.entryPtr e (pgOffset addr) ∧
      (t.pageIfWritable = t.page → pWritable e.flags) := by
  obtain ⟨e, he, hd, hp⟩ := h
  rw [ht, page_tlbPage] at he
  refine ⟨e, he, ?_, hp⟩
  have ho := tlbPage_add_pgOffset addr
  simp only [TlbEntry.ptr, hd, ht, World.entryPtr, Ptr.add, Ptr.mk.injEq, true_and]
  omega

theorem InSlot.page_eq (h : InSlot i t) (ht : t.pageIfWritable = tlbPage addr) :
    t.page = tlbPage addr := by
  rcases h with ⟨-, hw⟩ | ⟨-, -, hw | hw⟩
  · exact absurd (ht.symm.trans hw) (tlbPage_ne_empty addr)
  · rw [← hw, ht]
  · exact absurd (ht.symm.trans hw) (tlbPage_ne_empty addr)

/-- A page looks in one slot only. -/
theorem InSlot.index_eq (h : InSlot i t) (hne : t.page ≠ tlbPageEmpty)
    (hp : page t.page = page addr) : i = tlbIndex addr := by
  rcases h with ⟨he, -⟩ | ⟨hpage, hi, -⟩
  · exact absurd he hne
  · rw [← hi, ← hpage, tlbPage_eq_iff.mpr hp, tlbIndex_tlbPage]

/-- What holds of the cache and the memory between two accesses. -/
structure Good (w : World) (tlb : Tlb) : Prop where
  wf : w.Wf
  slots : ∀ i, InSlot i (tlb.entries i)
  coherent : Coherent w tlb.mem tlb

/-- An access through the cache keeps it good and turns no counter back. -/
structure Advance (w : World) (tlb : Tlb) (w' : World) (tlb' : Tlb) : Prop where
  mem : tlb'.mem = tlb.mem
  nextMem : w'.nextMem = w.nextMem
  changes : (w.mem tlb.mem).changes ≤ (w'.mem tlb.mem).changes
  good : Good w' tlb'

theorem Good.advance (h : Good w tlb) : Advance w tlb w tlb := ⟨rfl, rfl, le_rfl, h⟩

theorem Advance.trans {w'' : World} {tlb'' : Tlb} (h : Advance w tlb w' tlb')
    (h' : Advance w' tlb' w'' tlb'') : Advance w tlb w'' tlb'' := by
  have hc := h'.changes
  rw [h.mem] at hc
  exact ⟨h'.mem.trans h.mem, h'.nextMem.trans h.nextMem, h.changes.trans hc, h'.good⟩

theorem Good.tlbHandleMiss (h : Good w tlb) (addr : Addr) (type : Access) :
    Advance w tlb (tlbHandleMiss w tlb addr type).1 (tlbHandleMiss w tlb addr type).2.1 := by
  have hw' := h.wf.memPtr tlb.mem (tlbPage addr) type
  have hf : World.Frame tlb.mem w.nextData w.nextBlock w
    (w.memPtr tlb.mem (tlbPage addr) type).1 := World.memPtr_frame (tlbPage addr) type
  have hst : World.Stable tlb.mem w (w.memPtr tlb.mem (tlbPage addr) type).1 :=
    World.memPtr_stable (tlbPage addr) type
  unfold Isl.Emu.tlbHandleMiss
  dsimp only
  cases hq : (w.memPtr tlb.mem (tlbPage addr) type).2 with
  | none =>
    refine ⟨rfl, hf.nextMem, hst.mono, hw', h.slots, ?_⟩
    exact h.coherent.keep h.wf hw' hf.keepsBlocks
      (fun p e he ↦ World.memPtr_kept he (.inr (.inl hq)))
  | some q =>
    obtain ⟨e, he, hpw, rfl⟩ := World.memPtr_entry hq
    refine ⟨rfl, hf.nextMem, hst.mono, hw', fun i ↦ ?_, fun i hi ↦ ?_⟩
    · by_cases hix : i = tlbIndex addr
      · subst hix
        simp only [Function.update_self]
        refine .inr ⟨tlbPage_tlbPage addr, tlbIndex_tlbPage addr, ?_⟩
        dsimp only
        split
        · exact .inl rfl
        · exact .inr rfl
      · simp only [Function.update_of_ne hix]
        exact h.slots i
    · by_cases hix : i = tlbIndex addr
      · subst hix
        simp only [Function.update_self]
        refine ⟨e, ?_, ?_, fun hp ↦ ?_⟩
        · simpa only [page_tlbPage] using he
        · rw [pgOffset_tlbPage]
        · dsimp only at hp
          split at hp
          · exact hpw ‹_›
          · exact absurd hp.symm (tlbPage_ne_empty addr)
      · simp only [Function.update_of_ne hix] at hi ⊢
        have hne : page (tlb.entries i).page ≠ page (tlbPage addr) := by
          rw [page_tlbPage]
          exact fun hp ↦ hix ((h.slots i).index_eq hi hp)
        exact (h.coherent i hi).keep h.wf hw' hf.keepsBlocks
          (fun f hf ↦ World.memPtr_kept hf (.inl hne))

theorem Good.tlbReadPtr (h : Good w tlb) (addr : Addr) :
    Advance w tlb (tlbReadPtr w tlb addr).1 (tlbReadPtr w tlb addr).2.1 := by
  unfold Isl.Emu.tlbReadPtr
  dsimp only
  split
  · exact h.advance
  · exact h.tlbHandleMiss addr .read

theorem Good.tlbWritePtr (h : Good w tlb) (addr : Addr) :
    Advance w tlb (tlbWritePtr w tlb addr).1 (tlbWritePtr w tlb addr).2.1 := by
  unfold Isl.Emu.tlbWritePtr
  dsimp only
  split
  · exact ⟨rfl, rfl, le_rfl, h.wf, h.slots, h.coherent⟩
  · exact h.tlbHandleMiss addr .write

theorem Good.hostCopy (h : Good w tlb) (p : Ptr) (value : List Byte) :
    Advance w tlb (hostCopy w p value) tlb := by
  unfold Isl.Emu.hostCopy
  generalize (List.range value.length).zip value = bs
  induction bs generalizing w with
  | nil => exact h.advance
  | cons b bs ih =>
    have hb : Good (w.hostWrite (p.add b.1) b.2) tlb :=
      ⟨h.wf.hostWrite _ _, h.slots, h.coherent⟩
    have hadv : Advance w tlb (w.hostWrite (p.add b.1) b.2) tlb := ⟨rfl, rfl, le_rfl, hb⟩
    exact hadv.trans (ih hb)

theorem Good.tlbRead (h : Good w tlb) (addr : Addr) (size : ℕ) :
    Advance w tlb (tlbRead w tlb addr size).1 (tlbRead w tlb addr size).2.1 := by
  have h₁ := h.tlbReadPtr addr
  unfold Isl.Emu.tlbRead
  dsimp only
  split
  · exact h₁.trans (h₁.good.tlbReadPtr (nextPage addr))
  · exact h₁

theorem Good.tlbWrite (h : Good w tlb) (addr : Addr) (value : List Byte) :
    Advance w tlb (tlbWrite w tlb addr value).1 (tlbWrite w tlb addr value).2.1 := by
  have h₁ := h.tlbWritePtr addr
  have h₂ := h₁.trans (h₁.good.tlbWritePtr (nextPage addr))
  unfold Isl.Emu.tlbWrite
  dsimp only
  split
  · split
    · rename_i ptr1 ptr2 _ _
      have h₃ := h₂.trans (h₂.good.hostCopy ptr1 (value.take (pageSize - pgOffset addr)))
      exact h₃.trans (h₃.good.hostCopy ptr2 _)
    · exact h₂
  · split
    · exact h₁.trans (h₁.good.hostCopy _ value)
    · exact h₁

/-- A hit is the pointer `mem_ptr` gives. -/
theorem Good.hit (h : Good w tlb) (addr : Addr) :
    ((tlb.entries (tlbIndex addr)).page = tlbPage addr →
      w.memPtr tlb.mem addr .read = (w, some ((tlb.entries (tlbIndex addr)).ptr addr))) ∧
    ((tlb.entries (tlbIndex addr)).pageIfWritable = tlbPage addr →
      w.memPtr tlb.mem addr .write = (w, some ((tlb.entries (tlbIndex addr)).ptr addr))) := by
  have hback (hp : (tlb.entries (tlbIndex addr)).page = tlbPage addr) :=
    (h.coherent (tlbIndex addr) (hp ▸ tlbPage_ne_empty addr)).ptr hp
  constructor
  · intro hp
    obtain ⟨e, he, hptr, -⟩ := hback hp
    rw [World.memPtr_read_of he, hptr]
  · intro hp
    have hpage := (h.slots (tlbIndex addr)).page_eq hp
    obtain ⟨e, he, hptr, hpw⟩ := hback hpage
    rw [World.memPtr_write_of he (hpw (hp.trans hpage.symm)), hptr]

end Isl.Emu
