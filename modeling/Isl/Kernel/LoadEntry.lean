import Isl.Emu.GuestMap
import Isl.Kernel.ExecStart

/-!
`load_entry`: the bytes that a segment has in memory after it, and the pages that are
mapped for it.
-/

namespace Isl.Kernel.Exec

open Isl.Lib Isl.Emu.Memory
open Isl.Emu (GuestMem page_add)
open Isl.Emu.GuestMem (addrOf addrOf_toNat)
open Isl.Kernel.Mmap (Dword pageRoundUp pageRoundUp_of_ne_zero pageRoundUp_zero)

variable {σ : Type} {host : Host σ} {s s' : σ} {t t' : Task} {w w' : World} {m R i : ℕ}
  {ph : PrgHeader} {addr bias : Addr} {file : File} {bytes : List Byte} {contents : ℤ → Byte}

/-- What a mapping of a file shows at an offset: zeros after its end up to the end of a page
of the host, and nothing that is defined from there. -/
def shownAt (R : ℕ) (bytes : List Byte) (o : ℕ) : Option Byte :=
  if o < bytes.length then bytes[o]?
  else if o < (bytes.length + (R - 1)) / R * R then some 0 else none

/-- The host maps the bytes of a file. -/
def Host.MapsFile (host : Host σ) (s : σ) (file : File) (bytes : List Byte) : Prop :=
  ∀ length offset contents, host.mapFile s file length offset = some contents →
    ∀ i < length, ∀ b, shownAt host.realPageSize bytes (offset + i) = some b → contents i = b

/-- A segment inside the address space, from a file that holds its part of it. -/
structure Segment (ph : PrgHeader) (addr : Addr) (bytes : List Byte) : Prop where
  size : ph.filesize.toNat ≤ ph.memsize.toNat
  pos : 0 < ph.memsize.toNat
  inside : addr.toNat + ph.memsize.toNat ≤ 2 ^ 32
  held : ph.offset.toNat + ph.filesize.toNat ≤ bytes.length

/-- The segment is in memory, and no page is mapped anew but those that it has a part of. -/
structure SegmentLoaded (w w' : World) (m : ℕ) (ph : PrgHeader) (addr : Addr) (bytes : List Byte) :
    Prop where
  file : ∀ i < ph.filesize.toNat,
    (w'.view m).load (addr + BitVec.ofNat 32 i) = bytes[ph.offset.toNat + i]?
  zero : ∀ i, ph.filesize.toNat ≤ i → i < ph.memsize.toNat →
    (w'.view m).load (addr + BitVec.ofNat 32 i) = some 0
  other : ∀ m' p, (m' = m → ∀ i < ph.memsize.toNat, page (addr + BitVec.ofNat 32 i) ≠ p) →
    w'.memPt m' p = w.memPt m' p

/-! The sizes. -/

/-- The pages of the mapping of the file. -/
def filePages (ph : PrgHeader) (addr : Addr) : ℕ :=
  pageRoundUp (ph.filesize + BitVec.ofNat 32 (pgOffset addr))

/-- The offset in the file that is mapped at the start of the page. -/
def mapOffset (ph : PrgHeader) (addr : Addr) : Dword := ph.offset - BitVec.ofNat 32 (pgOffset addr)

/-- The offset that comes to be at the address of the segment. -/
def mappedFrom (ph : PrgHeader) (addr : Addr) : ℕ := (mapOffset ph addr).toNat + pgOffset addr

def fileEnd (ph : PrgHeader) (addr : Addr) : Addr := addr + ph.filesize

/-- The last bytes of the mapping of the file that are a part of the segment. -/
def InTail (ph : PrgHeader) (addr : Addr) (i : ℕ) : Prop :=
  ph.filesize.toNat ≤ i ∧ i < ph.memsize.toNat ∧
    i < ph.filesize.toNat + (tailSize (fileEnd ph addr)).toNat

instance (ph : PrgHeader) (addr : Addr) (i : ℕ) : Decidable (InTail ph addr i) :=
  inferInstanceAs (Decidable (_ ∧ _ ∧ _))

theorem pgOffset_toNat (addr : Addr) : (BitVec.ofNat 32 (pgOffset addr)).toNat = addr.toNat % pageSize :=
  Nat.mod_eq_of_lt ((Nat.mod_lt addr.toNat (by decide)).trans (by decide))

theorem tailSize_toNat (a : Addr) :
    (tailSize a).toNat = (pageSize - a.toNat % pageSize) % pageSize := by
  have hmod : a.toNat % pageSize < pageSize := Nat.mod_lt _ (by decide)
  have hsize : (BitVec.ofNat 32 pageSize - BitVec.ofNat 32 (pgOffset a)).toNat =
      pageSize - a.toNat % pageSize := by
    have hle : BitVec.ofNat 32 (pgOffset a) ≤ BitVec.ofNat 32 pageSize := by
      rw [BitVec.le_def, pgOffset_toNat]
      exact hmod.le
    rw [BitVec.toNat_sub_of_le hle, pgOffset_toNat]
    rfl
  unfold tailSize
  dsimp only
  split
  · rename_i h
    have hzero := congrArg BitVec.toNat h
    rw [hsize] at hzero
    have hpage : (BitVec.ofNat 32 pageSize).toNat = pageSize := rfl
    rw [hpage] at hzero
    rw [hzero]
    rfl
  · rename_i h
    rw [hsize]
    have hpos : a.toNat % pageSize ≠ 0 := by
      intro hzero
      apply h
      apply BitVec.eq_of_toNat_eq
      rw [hsize, hzero]
      rfl
    exact (Nat.mod_eq_of_lt (Nat.sub_lt (by decide) (Nat.pos_of_ne_zero hpos))).symm

theorem Segment.add_toNat (h : Segment ph addr bytes) (hi : i < ph.memsize.toNat) :
    (addr + BitVec.ofNat 32 i).toNat = addr.toNat + i := by
  have hin := h.inside
  rw [BitVec.toNat_add, BitVec.toNat_ofNat, Nat.mod_eq_of_lt (by omega), Nat.mod_eq_of_lt (by omega)]

theorem Segment.page_add (h : Segment ph addr bytes) (hi : i < ph.memsize.toNat) :
    page (addr + BitVec.ofNat 32 i) = (addr.toNat + i) / pageSize := by
  rw [page, h.add_toNat hi]

theorem Segment.fileEnd_toNat (h : Segment ph addr bytes) (hlt : ph.filesize.toNat < ph.memsize.toNat) :
    (fileEnd ph addr).toNat = addr.toNat + ph.filesize.toNat := by
  have hadd := h.add_toNat hlt
  rwa [BitVec.ofNat_toNat, BitVec.setWidth_eq] at hadd

section Pages

variable (h : Segment ph addr bytes) (hpages : filePages ph addr ≠ memPages)

include h hpages

/-- The number of pages wraps around for a segment without a part of the file from the start of a
page, and is that of the whole address space for a mapping of all of it. -/
theorem Segment.filePages_eq : 0 < ph.filesize.toNat + addr.toNat % pageSize ∧
    filePages ph addr = (ph.filesize.toNat + addr.toNat % pageSize - 1) / pageSize + 1 := by
  have hin := h.inside
  have hsize := h.size
  have hmod := Nat.mod_le addr.toNat pageSize
  have hne : ph.filesize + BitVec.ofNat 32 (pgOffset addr) ≠ 0 := by
    intro hzero
    apply hpages
    rw [filePages, hzero, pageRoundUp_zero]
  have hsum : (ph.filesize + BitVec.ofNat 32 (pgOffset addr)).toNat =
      (ph.filesize.toNat + addr.toNat % pageSize) % 2 ^ 32 := by
    rw [BitVec.toNat_add, pgOffset_toNat]
  have hnat : (ph.filesize + BitVec.ofNat 32 (pgOffset addr)).toNat ≠ 0 :=
    fun hz ↦ hne (BitVec.eq_of_toNat_eq hz)
  have hlt : ph.filesize.toNat + addr.toNat % pageSize < 2 ^ 32 := by omega
  rw [Nat.mod_eq_of_lt hlt] at hsum
  refine ⟨by omega, ?_⟩
  rw [filePages, pageRoundUp_of_ne_zero hne, hsum]

/-- The pages of the mapping are those with a byte up to the end of the tail. -/
theorem Segment.mem_filePages (hi : i < ph.memsize.toNat) :
    page (addr + BitVec.ofNat 32 i) < page addr + filePages ph addr ↔
      i < ph.filesize.toNat + (pageSize - (addr.toNat + ph.filesize.toNat) % pageSize) % pageSize := by
  obtain ⟨hpos, heq⟩ := h.filePages_eq hpages
  rw [h.page_add hi, heq, page]
  simp only [pageSize] at hpos ⊢
  omega

theorem Segment.filePages_le : page addr + filePages ph addr ≤ memPages := by
  obtain ⟨hpos, heq⟩ := h.filePages_eq hpages
  have hin := h.inside
  have hsize := h.size
  have hmem := h.pos
  have hall : memPages = 2 ^ 20 := rfl
  rw [heq, page]
  simp only [pageSize] at hpos ⊢
  omega

/-- Every page of the mapping has a part of the segment. -/
theorem Segment.filePages_part {p : ℕ} (hlow : page addr ≤ p) (hhigh : p < page addr + filePages ph addr) :
    ∃ i < ph.memsize.toNat, page (addr + BitVec.ofNat 32 i) = p := by
  obtain ⟨hpos, heq⟩ := h.filePages_eq hpages
  have hin := h.inside
  have hsize := h.size
  have hmem := h.pos
  rw [heq] at hhigh
  simp only [page, pageSize] at hlow hhigh hpos
  have hi : p * 4096 - addr.toNat < ph.memsize.toNat := by omega
  refine ⟨p * 4096 - addr.toNat, hi, ?_⟩
  rw [h.page_add hi]
  simp only [pageSize]
  omega

theorem Segment.filePages_size : filePages ph addr * pageSize % 2 ^ 32 ≠ 0 := by
  have hle := h.filePages_le hpages
  obtain ⟨-, heq⟩ := h.filePages_eq hpages
  have hall : memPages = 2 ^ 20 := rfl
  simp only [pageSize] at heq ⊢
  omega

end Pages

theorem Segment.page_le (h : Segment ph addr bytes) (hi : i < ph.memsize.toNat) :
    page addr ≤ page (addr + BitVec.ofNat 32 i) := by
  rw [h.page_add hi, page]
  exact Nat.div_le_div_right (Nat.le_add_right _ _)

/-! Copying to pages that are mapped and not shared. -/

/-- A page of an address space with these flags, which is written in place. -/
def PlainPage (w : World) (m p : ℕ) (flags : Flags) : Prop :=
  has flags pCow = false ∧ ∃ e, w.memPt m p = some e ∧ e.flags = flags

theorem memPtr_plainPage {a : Addr} {flags : Flags} (h : PlainPage w m (page a) flags) :
    (w.memPtr m a .write).1 = w ∧ ((w.memPtr m a .write).2.isSome ↔ has flags pWrite) := by
  obtain ⟨hcow, e, he, rfl⟩ := h
  have hgrow : w.grow m (page a) = w := World.grow_of_isSome (Option.isSome_of_eq_some he)
  cases hwrite : has e.flags pWrite with
  | true => simp [World.memPtr, hgrow, he, hwrite, hcow]
  | false => simp [World.memPtr, hgrow, he, hwrite]

theorem userWrite_plainPage {a : Addr} {flags : Flags} (bs : List Byte)
    (h : ∀ i < bs.length, PlainPage w m (page (a + BitVec.ofNat 32 i)) flags) :
    (userWrite w m a bs).1.memPt = w.memPt ∧
      (has flags pWrite = false → (userWrite w m a bs).1 = w) := by
  induction bs generalizing w a with
  | nil => exact ⟨rfl, fun _ ↦ rfl⟩
  | cons b bs ih =>
    have hfirst := h 0 (Nat.succ_pos _)
    rw [BitVec.add_zero] at hfirst
    obtain ⟨hworld, hsome⟩ := memPtr_plainPage hfirst
    have hstore : (w.store m a b).memPt = w.memPt := by rw [memPt_store, hworld]
    have hrest : ∀ i < bs.length, PlainPage (w.store m a b) m (page (a + 1 + BitVec.ofNat 32 i)) flags := by
      intro i hi
      rw [GuestMem.add_one_add, PlainPage, hstore]
      exact h (i + 1) (Nat.succ_lt_succ hi)
    unfold userWrite
    dsimp only
    split
    · rename_i hnone
      refine ⟨hstore, fun _ ↦ ?_⟩
      rw [World.store, Option.isNone_iff_eq_none.mp hnone]
      exact hworld
    · rename_i hnone
      refine ⟨(ih hrest).1.trans hstore, fun hwrite ↦ ?_⟩
      have hptr : (w.memPtr m a .write).2.isSome :=
        Option.isSome_iff_ne_none.mpr fun hn ↦ hnone (Option.isNone_iff_eq_none.mpr hn)
      cases hwrite.symm.trans (hsome.mp hptr)

/-! The parts of a segment. -/

/-- The first pages of a segment are mapped, with these bytes, and nothing else is. -/
structure Placed (w w' : World) (m : ℕ) (ph : PrgHeader) (addr : Addr) (pages : ℕ) (f : ℕ → Byte) : Prop where
  wf : w'.Wf
  unaliased : w'.Unaliased
  mem_lt : m < w'.nextMem
  load : ∀ i < ph.memsize.toNat, page (addr + BitVec.ofNat 32 i) < page addr + pages →
    (w'.view m).load (addr + BitVec.ofNat 32 i) = some (f i)
  mapped : ∀ p, page addr ≤ p → p < page addr + pages → (w'.memPt m p).isSome
  other : ∀ m' p, (m' = m → p < page addr ∨ page addr + pages ≤ p) → w'.memPt m' p = w.memPt m' p

/-- The mapping of the file. -/
def mapPart (w : World) (m : ℕ) (ph : PrgHeader) (addr : Addr) (contents : ℤ → Byte) : World :=
  (w.ptMapFresh m (page addr) (filePages ph addr) contents (loadEntryFlags ph)).1

/-- Zeros after the file's part. -/
def zeroPart (w : World) (m : ℕ) (ph : PrgHeader) (addr : Addr) : World :=
  (userWrite w m (fileEnd ph addr) (List.replicate (tailSize (fileEnd ph addr)).toNat 0)).1

theorem loadEntryFlags_cow (ph : PrgHeader) : has (loadEntryFlags ph) pCow = false := by
  unfold loadEntryFlags
  split <;> decide

theorem loadEntryFlags_write (ph : PrgHeader) : has (loadEntryFlags ph) pWrite = has ph.flags phW := by
  unfold loadEntryFlags
  split
  · rename_i h
    rw [h]
    decide
  · rename_i h
    rw [Bool.not_eq_true] at h
    rw [h]
    decide

/-- What a guest reads of zeros that are written after the file's part. -/
theorem load_zeros {g : GuestMem} {zeros : List Byte} {b : Byte} (h : Segment ph addr bytes)
    (hlt : ph.filesize.toNat < ph.memsize.toNat) (hlen : zeros.length = (tailSize (fileEnd ph addr)).toNat)
    (hzero : ∀ b ∈ zeros, b = 0) (hwritable : g.writable (fileEnd ph addr) zeros.length)
    (hi : i < ph.memsize.toNat) (hend : i < ph.filesize.toNat + zeros.length)
    (hload : g.load (addr + BitVec.ofNat 32 i) = some b) :
    (g.userWrite (fileEnd ph addr) zeros).1.load (addr + BitVec.ofNat 32 i) =
      some (if ph.filesize.toNat ≤ i then 0 else b) := by
  have hfile := h.fileEnd_toNat hlt
  have hinside := h.inside
  rw [tailSize_toNat, hfile] at hlen
  simp only [pageSize] at hlen
  by_cases hi' : ph.filesize.toNat ≤ i
  · have hj : i - ph.filesize.toNat < zeros.length := by omega
    have haddr : addr + BitVec.ofNat 32 i =
        fileEnd ph addr + BitVec.ofNat 32 (i - ph.filesize.toNat) := by
      apply BitVec.eq_of_toNat_eq
      rw [h.add_toNat hi, BitVec.toNat_add, hfile, BitVec.toNat_ofNat]
      omega
    rw [haddr, GuestMem.load_userWrite (GuestMem.userWrite_ok hwritable) (by omega) hj,
      hzero _ (List.getElem_mem hj), if_pos hi']
  · rw [GuestMem.load_userWrite_of_outside, hload, if_neg hi']
    rw [GuestMem.dist, BitVec.toNat_sub, h.add_toNat hi, hfile, hlen]
    omega

section Parts

variable (hw : w.Wf) (hu : w.Unaliased) (hm : m < w.nextMem) (h : Segment ph addr bytes)
  (hpages : filePages ph addr ≠ memPages)

include h hpages

theorem memPt_mapPart (m' p : ℕ) : (mapPart w m ph addr contents).memPt m' p =
    if m' = m ∧ page addr ≤ p ∧ p < page addr + filePages ph addr then
      some ⟨w.nextData, (p - page addr) * pageSize, loadEntryFlags ph⟩
    else w.memPt m' p :=
  World.memPt_ptMapFresh_of (h.filePages_size hpages) m' p

theorem mapPart_plainPage {p : ℕ} (hlow : page addr ≤ p) (hhigh : p < page addr + filePages ph addr) :
    PlainPage (mapPart w m ph addr contents) m p (loadEntryFlags ph) := by
  refine ⟨loadEntryFlags_cow ph, ⟨w.nextData, (p - page addr) * pageSize, loadEntryFlags ph⟩, ?_, rfl⟩
  rw [memPt_mapPart h hpages, if_pos ⟨rfl, hlow, hhigh⟩]

/-- The zeros go to one page of the mapping. -/
theorem fileEnd_page (hlt : ph.filesize.toNat < ph.memsize.toNat) {j : ℕ}
    (hj : j < (tailSize (fileEnd ph addr)).toNat) :
    page addr ≤ page (fileEnd ph addr + BitVec.ofNat 32 j) ∧
      page (fileEnd ph addr + BitVec.ofNat 32 j) < page addr + filePages ph addr := by
  have hend := h.fileEnd_toNat hlt
  rw [tailSize_toNat] at hj
  have hfit : pgOffset (fileEnd ph addr) + j < pageSize := by
    simp only [pgOffset, pageSize] at hj ⊢
    omega
  have hsame : fileEnd ph addr = addr + BitVec.ofNat 32 ph.filesize.toNat := by
    rw [BitVec.ofNat_toNat, BitVec.setWidth_eq, fileEnd]
  rw [page_add hfit]
  rw [hend] at hj
  rw [hsame]
  refine ⟨h.page_le hlt, (h.mem_filePages hpages hlt).mpr ?_⟩
  omega

/-- The bytes after the file's part become zero where the segment is writable. -/
theorem placed_zeroPart {f : ℕ → Byte} (hlt : ph.filesize.toNat < ph.memsize.toNat)
    (hplain : ∀ p, page addr ≤ p → p < page addr + filePages ph addr →
      PlainPage w' m p (loadEntryFlags ph))
    (hp : Placed w w' m ph addr (filePages ph addr) f) :
    Placed w (zeroPart w' m ph addr) m ph addr (filePages ph addr)
      fun i ↦ if has ph.flags phW ∧ ph.filesize.toNat ≤ i then 0 else f i := by
  unfold zeroPart
  have hlen : (List.replicate (tailSize (fileEnd ph addr)).toNat (0 : Byte)).length =
      (tailSize (fileEnd ph addr)).toNat := List.length_replicate
  have hzero : ∀ b ∈ List.replicate (tailSize (fileEnd ph addr)).toNat (0 : Byte), b = 0 :=
    fun b hb ↦ List.eq_of_mem_replicate hb
  generalize List.replicate (tailSize (fileEnd ph addr)).toNat (0 : Byte) = zeros at hlen hzero ⊢
  have hin : ∀ j < zeros.length, page addr ≤ page (fileEnd ph addr + BitVec.ofNat 32 j) ∧
      page (fileEnd ph addr + BitVec.ofNat 32 j) < page addr + filePages ph addr :=
    fun j hj ↦ fileEnd_page h hpages hlt (hlen ▸ hj)
  obtain ⟨hpt, hworld⟩ := userWrite_plainPage zeros fun j hj ↦ hplain _ (hin j hj).1 (hin j hj).2
  have ht := touched_userWrite hp.wf hp.unaliased m (fileEnd ph addr) zeros
  refine ⟨ht.wf, ht.unaliased, hp.mem_lt.trans_eq ht.nextMem.symm, fun i hi hpart ↦ ?_, fun p hlow hhigh ↦ ?_,
    fun m' p hout ↦ ?_⟩
  · have hload := hp.load i hi hpart
    cases hwrite : has ph.flags phW with
    | false =>
      rw [hworld ((loadEntryFlags_write ph).trans hwrite), hload]
      simp
    | true =>
      have hview := (view_userWrite hp.wf hp.unaliased m (fileEnd ph addr) zeros).1
      have hwritable : (w'.view m).writable (fileEnd ph addr) zeros.length := by
        intro j hj
        obtain ⟨-, e, he, hflags⟩ := hplain _ (hin j hj).1 (hin j hj).2
        rw [World.view_perm_of he, World.permOf_eq_readWrite, hflags, loadEntryFlags_write, hwrite]
      have hend : i < ph.filesize.toNat + zeros.length := by
        rw [hlen, tailSize_toNat, h.fileEnd_toNat hlt]
        exact (h.mem_filePages hpages hi).mp hpart
      rw [hview, load_zeros h hlt hlen hzero hwritable hi hend hload]
      simp
  · rw [hpt]
    exact hp.mapped p hlow hhigh
  · rw [hpt]
    exact hp.other m' p hout

include hw hu hm

theorem placed_mapPart : Placed w (mapPart w m ph addr contents) m ph addr (filePages ph addr)
    fun i ↦ contents (addr.toNat % pageSize + i : ℕ) := by
  have hsize := h.filePages_size hpages
  have hle := h.filePages_le hpages
  have hf : World.Frame m 0 0 w (mapPart w m ph addr contents) :=
    World.ptMapFresh_frame (Nat.zero_le _) (Nat.zero_le _) _ _ _ _
  refine ⟨hw.ptMapFresh _ _ _ _ _ hm hle, hu.ptMapFresh hw _ _ _ _ _, hm.trans_eq hf.nextMem.symm,
    fun i hi hin ↦ ?_, fun p hlow hhigh ↦ ?_, fun m' p hout ↦ ?_⟩
  · have hload : ((mapPart w m ph addr contents).view m).load (addr + BitVec.ofNat 32 i) = _ :=
      hw.load_ptMapFresh hm hle hsize (h.page_le hi) hin
    have hoff : addr.toNat + i - page addr * pageSize = addr.toNat % pageSize + i := by
      simp only [page, pageSize]
      omega
    rwa [h.add_toNat hi, hoff] at hload
  · rw [memPt_mapPart h hpages, if_pos ⟨rfl, hlow, hhigh⟩]
    rfl
  · rw [memPt_mapPart h hpages, if_neg]
    rintro ⟨rfl, hlow, hhigh⟩
    have hp := hout rfl
    omega

end Parts

/-- The bytes of a segment after its file's part that the zeros do not reach. -/
def bssRest (ph : PrgHeader) (addr : Addr) : Dword :=
  let bssSize := ph.memsize - ph.filesize
  bssSize - if bssSize < tailSize (fileEnd ph addr) then bssSize else tailSize (fileEnd ph addr)

/-- The pages after the mapping of the file. -/
def bssPart (w : World) (m : ℕ) (ph : PrgHeader) (addr : Addr) : World :=
  (w.ptMapNothing m (pageRoundUp (fileEnd ph addr)) (pageRoundUp (bssRest ph addr))
    (loadEntryFlags ph)).1

theorem Segment.bssRest_toNat (h : Segment ph addr bytes) : (bssRest ph addr).toNat =
    ph.memsize.toNat - ph.filesize.toNat - (tailSize (fileEnd ph addr)).toNat := by
  have hsub : (ph.memsize - ph.filesize).toNat = ph.memsize.toNat - ph.filesize.toNat :=
    BitVec.toNat_sub_of_le h.size
  unfold bssRest
  dsimp only
  split
  · rename_i hlt
    have hlt : (ph.memsize - ph.filesize).toNat < (tailSize (fileEnd ph addr)).toNat := hlt
    rw [BitVec.sub_self, BitVec.toNat_zero]
    omega
  · rename_i hlt
    have hle : tailSize (fileEnd ph addr) ≤ ph.memsize - ph.filesize := BitVec.not_lt.mp hlt
    rw [BitVec.toNat_sub_of_le hle, hsub]

def bssPages (ph : PrgHeader) (addr : Addr) : ℕ := pageRoundUp (bssRest ph addr)

section Bss

variable (h : Segment ph addr bytes) (hpages : filePages ph addr ≠ memPages)
  (hrest : bssRest ph addr ≠ 0)

include h hrest

theorem Segment.bssPages_eq : ph.filesize.toNat < ph.memsize.toNat ∧
    (tailSize (fileEnd ph addr)).toNat = (pageSize - (addr.toNat + ph.filesize.toNat) % pageSize) % pageSize ∧
    ph.filesize.toNat + (tailSize (fileEnd ph addr)).toNat < ph.memsize.toNat ∧
    bssPages ph addr =
      (ph.memsize.toNat - ph.filesize.toNat - (tailSize (fileEnd ph addr)).toNat - 1) / pageSize + 1 := by
  have hnat := h.bssRest_toNat
  have hne : (bssRest ph addr).toNat ≠ 0 := fun hz ↦ hrest (BitVec.eq_of_toNat_eq hz)
  have hlt : ph.filesize.toNat < ph.memsize.toNat := by omega
  refine ⟨hlt, ?_, by omega, ?_⟩
  · rw [tailSize_toNat, h.fileEnd_toNat hlt]
  · rw [bssPages, pageRoundUp_of_ne_zero hrest, hnat]

include hpages

theorem Segment.bss_start : pageRoundUp (fileEnd ph addr) = page addr + filePages ph addr := by
  obtain ⟨hpos, heq⟩ := h.filePages_eq hpages
  have hend := h.fileEnd_toNat (h.bssPages_eq hrest).1
  have hne : fileEnd ph addr ≠ 0 := by
    intro hzero
    rw [hzero] at hend
    have hz : (0 : Addr).toNat = 0 := rfl
    have hmod := Nat.mod_le addr.toNat pageSize
    omega
  rw [pageRoundUp_of_ne_zero hne, hend, heq, page]
  simp only [pageSize] at hpos ⊢
  omega

theorem Segment.bssPages_le : page addr + filePages ph addr + bssPages ph addr ≤ memPages := by
  obtain ⟨hpos, hfile⟩ := h.filePages_eq hpages
  obtain ⟨hlt, htail, hin, heq⟩ := h.bssPages_eq hrest
  have hinside := h.inside
  have hall : memPages = 2 ^ 20 := rfl
  rw [hfile, heq, page]
  simp only [pageSize] at htail hpos ⊢
  omega

theorem Segment.bssPages_size : bssPages ph addr ≠ 0 ∧ bssPages ph addr * pageSize % 2 ^ 32 ≠ 0 := by
  have hle := h.bssPages_le hpages hrest
  obtain ⟨-, hfile⟩ := h.filePages_eq hpages
  obtain ⟨-, -, -, heq⟩ := h.bssPages_eq hrest
  have hall : memPages = 2 ^ 20 := rfl
  simp only [pageSize] at hfile heq ⊢
  omega

theorem Segment.mem_bssPages (hi : i < ph.memsize.toNat) :
    page (addr + BitVec.ofNat 32 i) < page addr + (filePages ph addr + bssPages ph addr) := by
  obtain ⟨hpos, hfile⟩ := h.filePages_eq hpages
  obtain ⟨hlt, htail, hin, heq⟩ := h.bssPages_eq hrest
  rw [h.page_add hi, hfile, heq, page]
  simp only [pageSize] at htail hpos ⊢
  omega

theorem Segment.bssPages_part {p : ℕ} (hlow : page addr ≤ p)
    (hhigh : p < page addr + (filePages ph addr + bssPages ph addr)) :
    ∃ i < ph.memsize.toNat, page (addr + BitVec.ofNat 32 i) = p := by
  obtain ⟨hpos, hfile⟩ := h.filePages_eq hpages
  obtain ⟨hlt, htail, hin, heq⟩ := h.bssPages_eq hrest
  have hinside := h.inside
  rw [hfile, heq] at hhigh
  simp only [page, pageSize] at hlow hhigh hpos htail
  have hi : p * 4096 - addr.toNat < ph.memsize.toNat := by omega
  refine ⟨p * 4096 - addr.toNat, hi, ?_⟩
  rw [h.page_add hi]
  simp only [pageSize]
  omega

/-- The pages after the mapping of the file are zero. -/
theorem placed_bssPart {f : ℕ → Byte} (hp : Placed w w' m ph addr (filePages ph addr) f) :
    Placed w (bssPart w' m ph addr) m ph addr (filePages ph addr + bssPages ph addr) fun i ↦
      if i < ph.filesize.toNat + (tailSize (fileEnd ph addr)).toNat then f i else 0 := by
  have hstart := h.bss_start hpages hrest
  have hle := h.bssPages_le hpages hrest
  obtain ⟨hne, hsize⟩ := h.bssPages_size hpages hrest
  obtain ⟨hlt, htail, -, -⟩ := h.bssPages_eq hrest
  have hfresh : bssPart w' m ph addr = (w'.ptMapFresh m (page addr + filePages ph addr) (bssPages ph addr)
      (fun _ ↦ 0) (loadEntryFlags ph ||| pAnon)).1 := by
    rw [bssPart, hstart]
    exact congrArg Prod.fst (if_neg hne)
  have hpt (m₀ p : ℕ) : (w'.ptMapFresh m (page addr + filePages ph addr) (bssPages ph addr) (fun _ ↦ 0)
      (loadEntryFlags ph ||| pAnon)).1.memPt m₀ p = _ := World.memPt_ptMapFresh_of hsize m₀ p
  have hf : World.Frame m w'.nextData w'.nextBlock w' (w'.ptMapFresh m (page addr + filePages ph addr)
      (bssPages ph addr) (fun _ ↦ 0) (loadEntryFlags ph ||| pAnon)).1 :=
    World.ptMapFresh_frame le_rfl le_rfl _ _ _ _
  have hwf := hp.wf.ptMapFresh m (page addr + filePages ph addr) (bssPages ph addr) (fun _ ↦ 0)
    (loadEntryFlags ph ||| pAnon) hp.mem_lt hle
  rw [hfresh]
  refine ⟨hwf, hp.unaliased.ptMapFresh hp.wf _ _ _ _ _, hp.mem_lt.trans_eq hf.nextMem.symm,
    fun i hi hin ↦ ?_, fun p hlow hhigh ↦ ?_, fun m' p hout ↦ ?_⟩
  · have hpart := h.mem_filePages hpages hi
    rw [← htail] at hpart
    by_cases hold : i < ph.filesize.toNat + (tailSize (fileEnd ph addr)).toNat
    · -- a page of the mapping of the file is kept
      obtain ⟨e, he⟩ := Option.isSome_iff_exists.mp (hp.mapped _ (h.page_le hi) (hpart.mpr hold))
      have he' := hpt m (page (addr + BitVec.ofNat 32 i))
      rw [if_neg fun hin ↦ absurd (hpart.mpr hold) (Nat.not_lt.mpr hin.2.1), he] at he'
      rw [if_pos hold, hf.view_load hp.wf hwf he he', hp.load i hi (hpart.mpr hold)]
    · have hlow := Nat.le_of_not_lt fun hin ↦ hold (hpart.mp hin)
      rw [if_neg hold]
      exact hp.wf.load_ptMapFresh hp.mem_lt hle hsize hlow (by omega)
  · rw [hpt]
    split
    · rfl
    · rename_i hold
      exact hp.mapped p hlow (by omega)
  · rw [hpt, if_neg]
    · exact hp.other m' p fun hm ↦ by have hp := hout hm; omega
    · rintro ⟨rfl, hlow, hhigh⟩
      have hp := hout rfl
      omega

end Bss

/-! The whole segment. -/

theorem Placed.segmentLoaded_iff {pages : ℕ} {f : ℕ → Byte} (hp : Placed w w' m ph addr pages f)
    (h : Segment ph addr bytes)
    (hall : ∀ i < ph.memsize.toNat, page (addr + BitVec.ofNat 32 i) < page addr + pages)
    (hpart : ∀ p, page addr ≤ p → p < page addr + pages →
      ∃ i < ph.memsize.toNat, page (addr + BitVec.ofNat 32 i) = p) :
    SegmentLoaded w w' m ph addr bytes ↔
      (∀ i < ph.filesize.toNat, some (f i) = bytes[ph.offset.toNat + i]?) ∧
        ∀ i, ph.filesize.toNat ≤ i → i < ph.memsize.toNat → f i = 0 := by
  have hload {i : ℕ} (hi : i < ph.memsize.toNat) := hp.load i hi (hall i hi)
  constructor
  · intro hl
    refine ⟨fun i hi ↦ ?_, fun i hle hi ↦ ?_⟩
    · rw [← hl.file i hi, hload (hi.trans_le h.size)]
    · have hzero := hl.zero i hle hi
      rw [hload hi] at hzero
      exact Option.some.inj hzero
  · rintro ⟨hfile, hzero⟩
    refine ⟨fun i hi ↦ ?_, fun i hle hi ↦ ?_, fun m' p hout ↦ hp.other m' p fun hm ↦ ?_⟩
    · rw [hload (hi.trans_le h.size), hfile i hi]
    · rw [hload hi, hzero i hle hi]
    · by_contra hin
      obtain ⟨i, hi, rfl⟩ := hpart p (by omega) (by omega)
      exact hout hm i hi rfl

/-- What is in memory after a call of `load_entry` that meets no error. -/
def loadWorld (w : World) (m : ℕ) (ph : PrgHeader) (addr : Addr) (contents : ℤ → Byte) : World :=
  let mapped := mapPart w m ph addr contents
  if ph.filesize < ph.memsize then
    let zeroed := zeroPart mapped m ph addr
    if bssRest ph addr ≠ 0 then bssPart zeroed m ph addr else zeroed
  else mapped

/-- The bytes that a loaded segment has instead of those of the mapping. -/
theorem segmentBytes_iff {c f : ℕ → Byte} (h : Segment ph addr bytes)
    (hf : ∀ i < ph.memsize.toNat, f i =
      if i < ph.filesize.toNat + (tailSize (fileEnd ph addr)).toNat then
        if has ph.flags phW ∧ ph.filesize.toNat ≤ i then 0 else c i
      else 0) :
    ((∀ i < ph.filesize.toNat, some (f i) = bytes[ph.offset.toNat + i]?) ∧
      ∀ i, ph.filesize.toNat ≤ i → i < ph.memsize.toNat → f i = 0) ↔
    (∀ i < ph.filesize.toNat, some (c i) = bytes[ph.offset.toNat + i]?) ∧
      (has ph.flags phW ∨ ∀ i, InTail ph addr i → c i = 0) := by
  have hsize := h.size
  refine and_congr (forall₂_congr fun i hi ↦ ?_) ?_
  · rw [hf i (hi.trans_le hsize), if_pos (hi.trans_le (Nat.le_add_right _ _)),
      if_neg fun hc ↦ absurd hi (Nat.not_lt.mpr hc.2)]
  · constructor
    · intro hzero
      cases hwrite : has ph.flags phW with
      | true => exact .inl rfl
      | false =>
        refine .inr fun i hi ↦ ?_
        have hi' := hzero i hi.1 hi.2.1
        rwa [hf i hi.2.1, if_pos hi.2.2, if_neg (by simp [hwrite])] at hi'
    · intro htail i hle hi
      rw [hf i hi]
      split
      · rename_i hin
        split
        · rfl
        · rename_i hwrite
          exact htail.resolve_left (fun hw ↦ hwrite ⟨hw, hle⟩) i ⟨hle, hi, hin⟩
      · rfl

theorem loadWorld_loaded_iff (hw : w.Wf) (hu : w.Unaliased) (hm : m < w.nextMem)
    (h : Segment ph addr bytes) (hpages : filePages ph addr ≠ memPages) :
    SegmentLoaded w (loadWorld w m ph addr contents) m ph addr bytes ↔
      (∀ i < ph.filesize.toNat,
        some (contents (addr.toNat % pageSize + i : ℕ)) = bytes[ph.offset.toNat + i]?) ∧
      (has ph.flags phW ∨ ∀ i, InTail ph addr i → contents (addr.toNat % pageSize + i : ℕ) = 0) := by
  have hsize := h.size
  have hmap := @placed_mapPart w m ph addr bytes contents hw hu hm h hpages
  have hpart := fun p ↦ @Segment.filePages_part ph addr bytes h hpages p
  unfold loadWorld
  dsimp only
  split
  case isFalse hlt =>
    -- the file has all of the segment
    have heq : ph.filesize.toNat = ph.memsize.toNat := le_antisymm hsize (Nat.le_of_not_lt hlt)
    rw [hmap.segmentLoaded_iff h (fun i hi ↦ ?_) hpart]
    · refine and_congr_right fun _ ↦ iff_of_true (fun i hle hi ↦ absurd hi (by omega)) (.inr fun i hi ↦ ?_)
      exact absurd hi.2.1 (by have hle := hi.1; omega)
    · rw [h.mem_filePages hpages hi]
      omega
  case isTrue hlt =>
  have hlt : ph.filesize.toNat < ph.memsize.toNat := hlt
  have hzero := placed_zeroPart h hpages hlt (fun p ↦ mapPart_plainPage h hpages) hmap
  split
  case isTrue hrest =>
    have hbss := placed_bssPart h hpages hrest hzero
    rw [hbss.segmentLoaded_iff h (fun i hi ↦ h.mem_bssPages hpages hrest hi)
      fun p ↦ h.bssPages_part hpages hrest]
    exact segmentBytes_iff h fun i _ ↦ rfl
  case isFalse hrest =>
    have hend : ph.memsize.toNat ≤ ph.filesize.toNat + (tailSize (fileEnd ph addr)).toNat := by
      have hnat := h.bssRest_toNat
      have hz : (0 : Dword).toNat = 0 := rfl
      rw [not_not.mp hrest, hz] at hnat
      omega
    rw [hzero.segmentLoaded_iff h (fun i hi ↦ ?_) hpart]
    · refine segmentBytes_iff h fun i hi ↦ ?_
      rw [if_pos (hi.trans_le hend)]
    · rw [h.mem_filePages hpages hi, ← h.fileEnd_toNat hlt, ← tailSize_toNat]
      exact hi.trans_le hend

/-! A run. -/

def fileCorrection (host : Host σ) (ph : PrgHeader) (addr : Addr) : ℕ :=
  (mapOffset ph addr).toNat - (mapOffset ph addr).toNat / host.realPageSize * host.realPageSize

def fileLength (host : Host σ) (ph : PrgHeader) (addr : Addr) : ℕ :=
  filePages ph addr * pageSize % 2 ^ 32 + fileCorrection host ph addr

/-- What the host maps for a segment, if it maps it. -/
def fileMapped (host : Host σ) (s : σ) (file : File) (ph : PrgHeader) (addr : Addr) : Option (ℤ → Byte) :=
  if fileLength host ph addr = 0 then none
  else host.mapFile s file (fileLength host ph addr)
    ((mapOffset ph addr).toNat / host.realPageSize * host.realPageSize)

/-- The mapping of the file, by a host that may refuse it. -/
def mapReply (host : Host σ) (s : σ) (t : Task) (file : File) (ph : PrgHeader) (addr : Addr) : ℤ × Task :=
  if host.refuses s (.mmap file (page addr) (filePages ph addr) (mapOffset ph addr) (loadEntryFlags ph)) then
    (eNomem, t)
  else host.mmap s t file (page addr) (filePages ph addr) (mapOffset ph addr) (loadEntryFlags ph)

/-- The mapping of the pages after it. -/
def bssReply (host : Host σ) (s : σ) (t : Task) (ph : PrgHeader) (addr : Addr) : ℤ × Task :=
  if bssPages ph addr ≠ 0 &&
      host.refuses s (.mapNothing (pageRoundUp (fileEnd ph addr)) (bssPages ph addr) (loadEntryFlags ph)) then
    (eNomem, t)
  else t.map (pageRoundUp (fileEnd ph addr)) (bssPages ph addr)
    (t.world.ptMapNothing t.mem (pageRoundUp (fileEnd ph addr)) (bssPages ph addr) (loadEntryFlags ph))

theorem run_zeroTail (s : σ) (t : Task) : (zeroTail (fileEnd ph addr)).run host.machine (s, t) =
    some ((), (s, { t with world := zeroPart t.world t.mem ph addr })) := by
  unfold zeroTail zeroPart
  split
  · rfl
  · rename_i hzero
    have hnone : (tailSize (fileEnd ph addr)).toNat = 0 := by
      rw [not_not.mp hzero]
      rfl
    rw [hnone]
    rfl

theorem run_loadBss (s : σ) (t : Task) : (loadBss ph addr).run host.machine (s, t) =
    let t' := { t with world := zeroPart t.world t.mem ph addr }
    let r := bssReply host s t' ph addr
    some (if bssRest ph addr ≠ 0 then (if r.1 < 0 then r.1 else 0, s, r.2) else (0, s, t')) := by
  have hrun : (loadBss ph addr).run host.machine (s, t) =
      ((zeroTail (fileEnd ph addr)).run host.machine (s, t)).bind fun u ↦
        (if bssRest ph addr ≠ 0 then
          ElfCall.mapNothing (pageRoundUp (fileEnd ph addr)) (bssPages ph addr) (loadEntryFlags ph) >>=
            fun err ↦ return if err < 0 then err else 0
        else return 0 : ElfCall ℤ).run host.machine u.2 := Prog.run_bind
  rw [hrun, run_zeroTail, Option.bind_some]
  dsimp only
  split
  · rfl
  · rfl

theorem run_loadEntry (s : σ) (t : Task) : (loadEntry file ph bias).run host.machine (s, t) =
    let r := mapReply host s t file ph (ph.vaddr + bias)
    if r.1 < 0 then some (r.1, s, r.2)
    else if ph.filesize < ph.memsize then (loadBss ph (ph.vaddr + bias)).run host.machine (s, r.2)
    else some (0, s, r.2) := by
  have hrun : (loadEntry file ph bias).run host.machine (s, t) =
    let r := mapReply host s t file ph (ph.vaddr + bias)
    (if r.1 < 0 then return r.1
    else if ph.filesize < ph.memsize then loadBss ph (ph.vaddr + bias)
    else return 0 : ElfCall ℤ).run host.machine (s, r.2) := rfl
  rw [hrun]
  dsimp only
  split
  · rfl
  · split
    · rfl
    · rfl

theorem mmap_file (host : Host σ) (s : σ) (t : Task) (file : File) (ph : PrgHeader) (addr : Addr) :
    host.mmap s t file (page addr) (filePages ph addr) (mapOffset ph addr) (loadEntryFlags ph) =
      match fileMapped host s file ph addr with
      | none => (eInval, t)
      | some contents =>
        if filePages ph addr * pageSize % 2 ^ 32 = 0 then (0, { t with lost := true })
        else t.map (page addr) (filePages ph addr) (t.world.ptMapFresh t.mem (page addr) (filePages ph addr)
          (fun i ↦ contents (i + fileCorrection host ph addr)) (loadEntryFlags ph)) :=
  if_neg (Nat.succ_ne_zero _)

theorem eNomem_neg : eNomem < 0 := by decide

theorem mapReply_none (hnone : fileMapped host s file ph addr = none) :
    (mapReply host s t file ph addr).1 < 0 := by
  have hinval : eInval < 0 := by decide
  unfold mapReply
  rw [mmap_file, hnone]
  split
  · exact eNomem_neg
  · exact hinval

/-- What a mapping leaves of the task, unless it is refused. -/
theorem mapReply_some (h : Segment ph addr bytes) (hpages : filePages ph addr ≠ memPages)
    (hsome : fileMapped host s file ph addr = some contents) :
    mapReply host s t file ph addr =
      if host.refuses s (.mmap file (page addr) (filePages ph addr) (mapOffset ph addr) (loadEntryFlags ph)) then
        (eNomem, t)
      else (0, { t with
        world := mapPart t.world t.mem ph addr fun i ↦ contents (i + fileCorrection host ph addr) }) := by
  have hsize := h.filePages_size hpages
  unfold mapReply
  rw [mmap_file, hsome]
  dsimp only
  rw [if_neg hsize, Task.map_of_le _ (h.filePages_le hpages), World.ptMapFresh_result hsize]
  rfl

theorem bssReply_eq (h : Segment ph addr bytes) (hpages : filePages ph addr ≠ memPages)
    (hrest : bssRest ph addr ≠ 0) : bssReply host s t ph addr =
      if host.refuses s (.mapNothing (pageRoundUp (fileEnd ph addr)) (bssPages ph addr) (loadEntryFlags ph)) then
        (eNomem, t)
      else (0, { t with world := bssPart t.world t.mem ph addr }) := by
  obtain ⟨hne, hsize⟩ := h.bssPages_size hpages hrest
  have hle := h.bssPages_le hpages hrest
  rw [← h.bss_start hpages hrest] at hle
  have hresult : (t.world.ptMapNothing t.mem (pageRoundUp (fileEnd ph addr)) (bssPages ph addr)
      (loadEntryFlags ph)).2 = 0 :=
    (congrArg Prod.snd (if_neg hne)).trans (World.ptMapFresh_result hsize)
  unfold bssReply
  rw [Task.map_of_le _ hle, hresult, decide_eq_true hne, Bool.true_and]
  rfl

theorem loadEntry_none (hnone : fileMapped host s file ph (ph.vaddr + bias) = none) :
    (loadEntry file ph bias).run host.machine (s, t) ≠ some (0, s', t') := by
  have hneg := @mapReply_none σ host s t ph (ph.vaddr + bias) file hnone
  rw [run_loadEntry]
  dsimp only
  rw [if_pos hneg]
  intro hrun
  rw [Option.some.injEq, Prod.mk.injEq] at hrun
  omega

/-- A call where the host maps the file ends with the segment, or with an error of the host. -/
theorem loadEntry_some (h : Segment ph (ph.vaddr + bias) bytes)
    (hpages : filePages ph (ph.vaddr + bias) ≠ memPages)
    (hsome : fileMapped host s file ph (ph.vaddr + bias) = some contents) :
    (∃ op u, host.refuses s op ∧ (loadEntry file ph bias).run host.machine (s, t) = some (eNomem, u)) ∨
      (loadEntry file ph bias).run host.machine (s, t) = some (0, s, { t with
        world := loadWorld t.world t.mem ph (ph.vaddr + bias)
          fun i ↦ contents (i + fileCorrection host ph (ph.vaddr + bias)) }) := by
  rw [run_loadEntry]
  dsimp only
  rw [mapReply_some h hpages hsome]
  split
  · rename_i hrefused
    rw [if_pos eNomem_neg]
    exact .inl ⟨_, _, hrefused, rfl⟩
  · rw [if_neg (lt_irrefl 0), run_loadBss]
    unfold loadWorld
    dsimp only
    split
    · split
      · rename_i hrest
        rw [bssReply_eq h hpages hrest]
        split
        · rename_i hrefused
          rw [if_pos eNomem_neg]
          exact .inl ⟨_, _, hrefused, rfl⟩
        · dsimp only
          rw [if_neg (lt_irrefl 0)]
          exact .inr rfl
      · exact .inr rfl
    · exact .inr rfl

/-! A number of pages that wraps around. -/

theorem bssReply_lost (hgrant : ∀ op, host.refuses s op = false) (hlost : t.lost = true) :
    (bssReply host s t ph addr).1 = 0 ∧ (bssReply host s t ph addr).2.lost = true := by
  have hne : bssPages ph addr ≠ 0 := Nat.succ_ne_zero _
  unfold bssReply
  rw [hgrant, Bool.and_false, if_neg Bool.false_ne_true]
  unfold Task.map
  split
  · rename_i hle
    have hstart : 0 < pageRoundUp (fileEnd ph addr) := Nat.succ_pos _
    have hall : memPages = 2 ^ 20 := rfl
    have hsize : bssPages ph addr * pageSize % 2 ^ 32 ≠ 0 := by
      simp only [pageSize]
      omega
    exact ⟨(congrArg Prod.snd (if_neg hne)).trans (World.ptMapFresh_result hsize), hlost⟩
  · exact ⟨rfl, rfl⟩

theorem loadEntry_lost (hwrap : filePages ph (ph.vaddr + bias) = memPages)
    (hgrant : ∀ op, host.refuses s op = false)
    (hsome : fileMapped host s file ph (ph.vaddr + bias) = some contents) :
    ∃ t', (loadEntry file ph bias).run host.machine (s, t) = some (0, s, t') ∧ t'.lost = true := by
  have hzero : filePages ph (ph.vaddr + bias) * pageSize % 2 ^ 32 = 0 := by
    rw [hwrap]
    rfl
  have hreply : mapReply host s t file ph (ph.vaddr + bias) = (0, { t with lost := true }) := by
    unfold mapReply
    rw [hgrant, if_neg Bool.false_ne_true, mmap_file, hsome]
    exact if_pos hzero
  rw [run_loadEntry, hreply]
  dsimp only
  rw [if_neg (lt_irrefl 0), run_loadBss]
  dsimp only
  split
  · split
    · have hbss := @bssReply_lost σ host s { t with
        lost := true, world := zeroPart t.world t.mem ph (ph.vaddr + bias) } ph (ph.vaddr + bias) hgrant rfl
      rw [hbss.1, if_neg (lt_irrefl 0)]
      exact ⟨_, rfl, hbss.2⟩
    · exact ⟨_, rfl, rfl⟩
  · exact ⟨_, rfl, rfl⟩

theorem fileCorrection_eq (host : Host σ) (ph : PrgHeader) (addr : Addr) :
    fileCorrection host ph addr = (mapOffset ph addr).toNat % host.realPageSize := by
  rw [fileCorrection, Nat.mod_eq_sub_mul_div, Nat.mul_comm]

theorem fileMapped_of_dvd (hwrap : filePages ph addr = memPages)
    (hdvd : host.realPageSize ∣ (mapOffset ph addr).toNat) : fileMapped host s file ph addr = none := by
  have hlength : fileLength host ph addr = 0 := by
    rw [fileLength, hwrap, fileCorrection_eq, Nat.mod_eq_zero_of_dvd hdvd]
    rfl
  exact if_pos hlength

/-! A host that maps a file. -/

/-- A host that grants every request and shows a byte where nothing is defined. -/
def fileHost (R : ℕ) (bytes : List Byte) (b : Byte) : Host Unit :=
  { bareHost with
    mapFile := fun _ _ _ offset ↦ some fun i ↦ (shownAt R bytes (offset + i.toNat)).getD b
    realPageSize := R }

theorem fileHost_mapsFile (R : ℕ) (bytes : List Byte) (b : Byte) (file : File) :
    (fileHost R bytes b).MapsFile () file bytes := by
  intro length offset contents hmap i _ c hshown
  cases hmap
  have hshown : shownAt R bytes (offset + i) = some c := hshown
  dsimp only
  rw [Int.toNat_natCast, hshown, Option.getD_some]

theorem fileMapped_fileHost {b : Byte} (h : fileLength (fileHost R bytes b) ph addr ≠ 0) :
    fileMapped (fileHost R bytes b) () file ph addr = some fun i ↦
      (shownAt R bytes ((mapOffset ph addr).toNat / R * R + i.toNat)).getD b := if_neg h

/-! Which segments are loaded. -/

/-- On a host with pages of this size that maps the bytes of the file, a call that returns zero has
a defined effect and has loaded the segment. -/
def LoadsSegment (R : ℕ) (bytes : List Byte) (t : Task) (file : File) (ph : PrgHeader) (bias : Addr) :
    Prop :=
  ∀ (σ : Type) (host : Host σ) (s s' : σ) (t' : Task), host.realPageSize = R →
    host.MapsFile s file bytes → (loadEntry file ph bias).run host.machine (s, t) = some (0, s', t') →
      t'.lost = false ∧ SegmentLoaded t.world t'.world t.mem ph (ph.vaddr + bias) bytes

/-- The offset of the mapping does not wrap around, or does so to bytes that are the same. Where the
zeros cannot be written, they are in the file. A number of pages that wraps around is refused. -/
def Loadable (R : ℕ) (bytes : List Byte) (ph : PrgHeader) (addr : Addr) : Prop :=
  if filePages ph addr = memPages then R ∣ (mapOffset ph addr).toNat
  else
    (pgOffset addr ≤ ph.offset.toNat ∨ ∀ i < ph.filesize.toNat,
      shownAt R bytes (mappedFrom ph addr + i) = bytes[ph.offset.toNat + i]?) ∧
    (has ph.flags phW ∨ ∀ i, InTail ph addr i → shownAt R bytes (mappedFrom ph addr + i) = some 0)

theorem shownAt_of_lt {o : ℕ} (h : o < bytes.length) : shownAt R bytes o = bytes[o]? := if_pos h

theorem mappedFrom_of_le (h : pgOffset addr ≤ ph.offset.toNat) : mappedFrom ph addr = ph.offset.toNat := by
  have hle : BitVec.ofNat 32 (pgOffset addr) ≤ ph.offset := by
    rw [BitVec.le_def, pgOffset_toNat]
    exact h
  rw [mappedFrom, mapOffset, BitVec.toNat_sub_of_le hle, pgOffset_toNat]
  exact Nat.sub_add_cancel h

/-- The bytes of the file's part where they are mapped from. -/
theorem Loadable.shown_file (h : Loadable R bytes ph addr) (hseg : Segment ph addr bytes)
    (hpages : filePages ph addr ≠ memPages) (hi : i < ph.filesize.toNat) :
    shownAt R bytes (mappedFrom ph addr + i) = bytes[ph.offset.toNat + i]? := by
  rw [Loadable, if_neg hpages] at h
  obtain hle | hsame := h.1
  · rw [mappedFrom_of_le hle, shownAt_of_lt (lt_of_lt_of_le (Nat.add_lt_add_left hi _) hseg.held)]
  · exact hsame i hi

theorem realOffset_add (host : Host σ) (ph : PrgHeader) (addr : Addr) (i : ℕ) :
    (mapOffset ph addr).toNat / host.realPageSize * host.realPageSize +
      (addr.toNat % pageSize + i + fileCorrection host ph addr) = mappedFrom ph addr + i := by
  have hdiv := Nat.div_add_mod (mapOffset ph addr).toNat host.realPageSize
  rw [Nat.mul_comm] at hdiv
  rw [fileCorrection_eq, mappedFrom, pgOffset]
  omega

/-- The bytes of the host's mapping that the segment has a part of. -/
theorem Host.MapsFile.shown (hmaps : host.MapsFile s file bytes) (h : Segment ph addr bytes)
    (hpages : filePages ph addr ≠ memPages) (hsome : fileMapped host s file ph addr = some contents)
    (hi : i < ph.memsize.toNat) (hin : page (addr + BitVec.ofNat 32 i) < page addr + filePages ph addr)
    {b : Byte} (hb : shownAt host.realPageSize bytes (mappedFrom ph addr + i) = some b) :
    contents ((addr.toNat % pageSize + i : ℕ) + fileCorrection host ph addr) = b := by
  unfold fileMapped at hsome
  split at hsome
  · cases hsome
  have hsize := h.filePages_size hpages
  have hle := h.filePages_le hpages
  have hlt : addr.toNat % pageSize + i + fileCorrection host ph addr < fileLength host ph addr := by
    have hall : memPages = 2 ^ 20 := rfl
    rw [h.page_add hi] at hin
    simp only [fileLength, page, pageSize] at hin hsize ⊢
    omega
  rw [← realOffset_add host ph addr i] at hb
  have hcontents := hmaps _ _ _ hsome _ hlt b hb
  rwa [Nat.cast_add] at hcontents

theorem Loadable.loadsSegment (h : Loadable R bytes ph (ph.vaddr + bias)) (ht : Sound t)
    (hlost : t.lost = false) (hseg : Segment ph (ph.vaddr + bias) bytes) :
    LoadsSegment R bytes t file ph bias := by
  intro σ host s s' t' hR hmaps hrun
  subst hR
  by_cases hpages : filePages ph (ph.vaddr + bias) = memPages
  · rw [Loadable, if_pos hpages] at h
    exact absurd hrun (loadEntry_none (fileMapped_of_dvd hpages h))
  have hin {i : ℕ} (hi : i < ph.memsize.toNat) := hseg.mem_filePages hpages hi
  cases hmap : fileMapped host s file ph (ph.vaddr + bias) with
  | none => exact absurd hrun (loadEntry_none hmap)
  | some contents =>
    obtain ⟨op, u, -, herr⟩ | hok := @loadEntry_some σ host s t ph bias file bytes contents hseg hpages hmap
    · cases hrun.symm.trans herr
    cases hrun.symm.trans hok
    refine ⟨hlost, (loadWorld_loaded_iff ht.wf ht.unaliased ht.mem_lt hseg hpages).mpr ⟨fun i hi ↦ ?_, ?_⟩⟩
    · have hlt : ph.offset.toNat + i < bytes.length :=
        lt_of_lt_of_le (Nat.add_lt_add_left hi _) hseg.held
      have hshown := h.shown_file hseg hpages hi
      rw [List.getElem?_eq_getElem hlt] at hshown ⊢
      have hpage := (hin (hi.trans_le hseg.size)).mpr (hi.trans_le (Nat.le_add_right _ _))
      exact congrArg some (hmaps.shown hseg hpages hmap (hi.trans_le hseg.size) hpage hshown)
    · rw [Loadable, if_neg hpages] at h
      refine h.2.imp_right fun hzero i hi ↦ ?_
      have hlt : ph.filesize.toNat < ph.memsize.toNat := hi.1.trans_lt hi.2.1
      have htail := hi.2.2
      rw [tailSize_toNat, hseg.fileEnd_toNat hlt] at htail
      exact hmaps.shown hseg hpages hmap hi.2.1 ((hin hi.2.1).mpr htail) (hzero i hi)

theorem loadEntry_fileHost {b : Byte} (hseg : Segment ph (ph.vaddr + bias) bytes)
    (hpages : filePages ph (ph.vaddr + bias) ≠ memPages) :
    ∃ t', (loadEntry file ph bias).run (fileHost R bytes b).machine ((), t) = some (0, (), t') ∧
      t'.world = loadWorld t.world t.mem ph (ph.vaddr + bias)
        fun i ↦ (shownAt R bytes ((mapOffset ph (ph.vaddr + bias)).toNat / R * R +
          (i + fileCorrection (fileHost R bytes b) ph (ph.vaddr + bias)).toNat)).getD b := by
  have hlength : fileLength (fileHost R bytes b) ph (ph.vaddr + bias) ≠ 0 := by
    intro hzero
    exact hseg.filePages_size hpages (Nat.eq_zero_of_add_eq_zero hzero).1
  obtain ⟨op, u, hrefused, -⟩ | hok :=
    @loadEntry_some Unit (fileHost R bytes b) () t ph bias file bytes _ hseg hpages (fileMapped_fileHost hlength)
  · cases hrefused
  · exact ⟨_, hok, rfl⟩

theorem LoadsSegment.loadable (h : LoadsSegment R bytes t file ph bias) (ht : Sound t)
    (hseg : Segment ph (ph.vaddr + bias) bytes) : Loadable R bytes ph (ph.vaddr + bias) := by
  rw [Loadable]
  split
  case isTrue hwrap =>
    by_contra hdvd
    have hlength : fileLength (fileHost R bytes 0) ph (ph.vaddr + bias) ≠ 0 := by
      intro hzero
      rw [fileLength, fileCorrection_eq] at hzero
      exact hdvd (Nat.dvd_of_mod_eq_zero (Nat.eq_zero_of_add_eq_zero hzero).2)
    obtain ⟨t', hrun, hlost⟩ := @loadEntry_lost Unit (fileHost R bytes 0) () t ph bias file _ hwrap
      (fun _ ↦ rfl) (fileMapped_fileHost hlength)
    obtain ⟨hdefined, -⟩ := h Unit (fileHost R bytes 0) () () t' rfl (fileHost_mapsFile R bytes 0 file) hrun
    cases hlost.symm.trans hdefined
  case isFalse hpages =>
    have hkey (b : Byte) : (∀ i < ph.filesize.toNat, some ((shownAt R bytes
          (mappedFrom ph (ph.vaddr + bias) + i)).getD b) = bytes[ph.offset.toNat + i]?) ∧
        (has ph.flags phW ∨ ∀ i, InTail ph (ph.vaddr + bias) i →
          (shownAt R bytes (mappedFrom ph (ph.vaddr + bias) + i)).getD b = 0) := by
      obtain ⟨t', hrun, hworld⟩ := @loadEntry_fileHost t R ph bias file bytes b hseg hpages
      obtain ⟨-, hloaded⟩ := h Unit (fileHost R bytes b) () () t' rfl (fileHost_mapsFile R bytes b file) hrun
      rw [hworld, loadWorld_loaded_iff ht.wf ht.unaliased ht.mem_lt hseg hpages] at hloaded
      have hoffset (i : ℕ) : (mapOffset ph (ph.vaddr + bias)).toNat / R * R +
          (((ph.vaddr + bias).toNat % pageSize + i : ℕ) +
            (fileCorrection (fileHost R bytes b) ph (ph.vaddr + bias) : ℤ)).toNat =
          mappedFrom ph (ph.vaddr + bias) + i :=
        realOffset_add (fileHost R bytes b) ph (ph.vaddr + bias) i
      simpa only [hoffset] using hloaded
    refine ⟨.inr fun i hi ↦ ?_, (hkey 1).2.imp_right fun htail i hi ↦ ?_⟩
    · have hzero := (hkey 0).1 i hi
      have hone := (hkey 1).1 i hi
      cases hshown : shownAt R bytes (mappedFrom ph (ph.vaddr + bias) + i) with
      | some b => rwa [hshown] at hzero
      | none =>
        rw [hshown] at hzero hone
        cases hzero.trans hone.symm
    · have hone := htail i hi
      cases hshown : shownAt R bytes (mappedFrom ph (ph.vaddr + bias) + i) with
      | some b => rw [← hone, hshown]; rfl
      | none =>
        rw [hshown] at hone
        cases hone

/-- Exactly these segments are in memory after every call that returns zero. -/
theorem loadEntry_loads_iff {t : Task} {R : ℕ} {bytes : List Byte} {file : File} {ph : PrgHeader}
    {bias : Addr} (hreach : Run.Reaches World.step (fun _ op ↦ op.InPlace) World.init t.world)
    (hmem : t.world.inUse t.mem) (hlost : t.lost = false) (hseg : Segment ph (ph.vaddr + bias) bytes) :
    LoadsSegment R bytes t file ph bias ↔ Loadable R bytes ph (ph.vaddr + bias) := by
  have ht : Sound t := ⟨World.wf_of_reaches (hreach.mono fun _ _ _ ↦ trivial),
    World.unaliased_of_reaches hreach, hmem.1⟩
  constructor
  · intro h
    exact h.loadable ht hseg
  · intro h
    exact h.loadsSegment ht hlost hseg

/-- A segment with one byte in the file and one after it. -/
def smallSegment (flags : Dword) : PrgHeader where
  type := ptLoad
  offset := 0
  vaddr := 0x08048000
  filesize := 1
  memsize := 2
  flags := flags

theorem smallSegment_segment (flags : Dword) : Segment (smallSegment flags) 0x08048000 [1, 2] :=
  ⟨show 1 ≤ 2 by decide, show 0 < 2 by decide, show 0x08048000 + 2 ≤ 2 ^ 32 by decide,
    show 0 + 1 ≤ 2 by decide⟩

theorem loadEntry_loads_writable : ∃ t' : Task,
    (loadEntry .program (smallSegment 6) 0).run (fileHost 4096 [1, 2] 0).machine ((), bareTask) =
        some (0, (), t') ∧
      SegmentLoaded bareTask.world t'.world bareTask.mem (smallSegment 6) 0x08048000 [1, 2] := by
  have hpages : filePages (smallSegment 6) 0x08048000 ≠ memPages := by decide
  have hload : Loadable 4096 [1, 2] (smallSegment 6) 0x08048000 := by
    rw [Loadable, if_neg hpages]
    exact ⟨.inl (by decide), .inl (by decide)⟩
  have hloads : LoadsSegment 4096 [1, 2] bareTask .program (smallSegment 6) 0 :=
    (loadEntry_loads_iff bareTask_reaches (by decide) rfl (smallSegment_segment 6)).mpr hload
  obtain ⟨t', hrun, -⟩ := @loadEntry_fileHost bareTask 4096 (smallSegment 6) 0 .program [1, 2] 0
    (smallSegment_segment 6) hpages
  exact ⟨t', hrun, (hloads Unit (fileHost 4096 [1, 2] 0) () () t' rfl (fileHost_mapsFile _ _ _ _) hrun).2⟩

/-- A segment that is not writable keeps the byte that is after it in the file. -/
theorem loadEntry_keeps_tail : ∃ t' : Task,
    (loadEntry .program (smallSegment 4) 0).run (fileHost 4096 [1, 2] 0).machine ((), bareTask) =
        some (0, (), t') ∧
      ¬SegmentLoaded bareTask.world t'.world bareTask.mem (smallSegment 4) 0x08048000 [1, 2] := by
  have hpages : filePages (smallSegment 4) 0x08048000 ≠ memPages := by decide
  obtain ⟨t', hrun, hworld⟩ := @loadEntry_fileHost bareTask 4096 (smallSegment 4) 0 .program [1, 2] 0
    (smallSegment_segment 4) hpages
  refine ⟨t', hrun, fun hloaded ↦ ?_⟩
  rw [hworld] at hloaded
  obtain ⟨-, hwrite | htail⟩ := (loadWorld_loaded_iff bareTask_idle.wf bareTask_idle.unaliased (by decide)
    (smallSegment_segment 4) hpages).mp hloaded
  · cases hwrite
  · have hbyte : (shownAt 4096 [1, 2] 1).getD 0 = 0 := htail 1 (by decide)
    exact absurd hbyte (by decide)

end Isl.Kernel.Exec
