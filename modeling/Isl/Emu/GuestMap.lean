import Isl.Emu.GuestStack
import Isl.Emu.GuestView

/-!
What a guest reads of a mapping, and of the pages that are mapped beside it.
-/

namespace Isl.Emu.Memory.World

variable {w w' : World} {m p start pages : ℕ} {a : Addr} {c : ℤ → Byte} {flags : Flags} {e : PtEntry}

theorem memPt_ptMapFresh_of (hsize : pages * pageSize % 2 ^ 32 ≠ 0) (m' p' : ℕ) :
    (w.ptMapFresh m start pages c flags).1.memPt m' p' =
      if m' = m ∧ start ≤ p' ∧ p' < start + pages then
        some ⟨w.nextData, (p' - start) * pageSize, flags⟩
      else w.memPt m' p' := by
  unfold ptMapFresh
  rw [mmap_eq hsize]
  exact memPt_ptMap _ m start pages w.nextBlock flags m' p'

theorem ptMapFresh_result (hsize : pages * pageSize % 2 ^ 32 ≠ 0) :
    (w.ptMapFresh m start pages c flags).2 = 0 := by
  unfold ptMapFresh
  rw [mmap_eq hsize]
  rfl

theorem ptMapFresh_byte (hsize : pages * pageSize % 2 ^ 32 ≠ 0) :
    (w.ptMapFresh m start pages c flags).1.byte w.nextBlock = c := by
  have hf : Frame m 0 (w.nextBlock + 1) (w.mmap (pages * pageSize % 2 ^ 32) c).2
      (w.ptMapFresh m start pages c flags).1 :=
    ptMap_frame (Nat.zero_le _) start pages _ flags
  rw [hf.byte _ (Nat.lt_succ_self _), mmap_eq hsize]
  exact Function.update_self _ _ _

/-- The entries of a mapping are of its own block. -/
theorem Wf.ptMapFresh_entryPtr (hw : w.Wf) (hm : m < w.nextMem) (hin : start + pages ≤ memPages)
    (hsize : pages * pageSize % 2 ^ 32 ≠ 0) (he : (w.ptMapFresh m start pages c flags).1.memPt m p = some e)
    (hnew : e.data = w.nextData) (off : ℕ) :
    (w.ptMapFresh m start pages c flags).1.entryPtr e off = ⟨w.nextBlock, e.offset + off⟩ := by
  obtain ⟨x, hx⟩ := (hw.ptMapFresh m start pages c flags hm hin).mapped he
  have hblock : x.data = w.nextBlock := by
    have hcounts : Counts ((w.mmap (pages * pageSize % 2 ^ 32) c).2.dataNew w.nextBlock
        (pages * pageSize % 2 ^ 32)) (w.ptMapFresh m start pages c flags).1 := by
      unfold World.ptMapFresh
      rw [mmap_eq hsize]
      exact foldl_counts (fun _ p ↦ ptMapPage_counts m _ start flags p) _ _
    rw [hnew] at hx
    have hnext : w.nextData = (w.mmap (pages * pageSize % 2 ^ 32) c).2.nextData := (mmap_nextData _ _).symm
    obtain ⟨y, hy, hdata, -⟩ | ⟨hlt, -⟩ := hcounts.data _ x hx
    · rw [hnext] at hy
      cases (Function.update_self _ _ _).symm.trans hy
      exact hdata
    · rw [hnext] at hlt
      exact absurd hlt (Nat.not_succ_le_self _)
  simp [entryPtr, hx, hblock]

/-- A guest reads the contents of a mapping. -/
theorem Wf.load_ptMapFresh (hw : w.Wf) (hm : m < w.nextMem) (hin : start + pages ≤ memPages)
    (hsize : pages * pageSize % 2 ^ 32 ≠ 0) (hlow : start ≤ page a) (hhigh : page a < start + pages) :
    ((w.ptMapFresh m start pages c flags).1.view m).load a =
      some (c (a.toNat - start * pageSize : ℕ)) := by
  have he : (w.ptMapFresh m start pages c flags).1.memPt m (page a) =
      some ⟨w.nextData, (page a - start) * pageSize, flags⟩ := by
    rw [memPt_ptMapFresh_of hsize, if_pos ⟨rfl, hlow, hhigh⟩]
  have hoff : (page a - start) * pageSize + pgOffset a = a.toNat - start * pageSize := by
    have hdiv := Nat.div_add_mod a.toNat pageSize
    have hle := Nat.mul_le_mul_right pageSize hlow
    rw [Nat.sub_mul]
    unfold page pgOffset at *
    rw [Nat.mul_comm] at hdiv
    omega
  rw [GuestMem.load, view_perm_of he, if_neg (permOf_ne_unmapped _), view_byte_of he,
    hw.ptMapFresh_entryPtr hm hin hsize he rfl, ptMapFresh_byte hsize, ← hoff, Nat.cast_add]

/-- A page whose entry is kept reads as before. -/
theorem Frame.view_load (hf : Frame m w.nextData w.nextBlock w w') (hw : w.Wf) (hw' : w'.Wf)
    (he : w.memPt m (page a) = some e) (he' : w'.memPt m (page a) = some e) :
    (w'.view m).load a = (w.view m).load a := by
  rw [GuestMem.load, GuestMem.load, view_perm_of he, view_perm_of he',
    hf.view_byte hw hw' (he'.trans he.symm)]

end Isl.Emu.Memory.World
