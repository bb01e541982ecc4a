import Isl.Emu.MemoryAlias
import Isl.Emu.Tlb

/-!
Accesses that straddle two pages: the addresses of their bytes, the copies to
host memory, and the page that an access looks at.
-/

namespace Isl.Emu

open Memory

variable {w : World} {m p k : ℕ} {addr : Addr} {q : Ptr} {value : List Byte} {type : Access}

/-! Addresses in a page. -/

theorem add_ofNat_toNat {a : Addr} (h : pgOffset a + k < pageSize) :
    (a + BitVec.ofNat 32 k).toNat = a.toNat + k := by
  have ha := a.isLt
  simp only [pgOffset, pageSize] at h
  rw [BitVec.toNat_add, BitVec.toNat_ofNat]
  omega

theorem page_add {a : Addr} (h : pgOffset a + k < pageSize) :
    page (a + BitVec.ofNat 32 k) = page a := by
  simp only [page, add_ofNat_toNat h]
  simp only [pgOffset, pageSize] at h ⊢
  omega

theorem pgOffset_add {a : Addr} (h : pgOffset a + k < pageSize) :
    pgOffset (a + BitVec.ofNat 32 k) = pgOffset a + k := by
  simp only [pgOffset, add_ofNat_toNat h]
  simp only [pgOffset, pageSize] at h ⊢
  omega

theorem addr_ext {a b : Addr} (hp : page a = page b) (ho : pgOffset a = pgOffset b) : a = b := by
  apply BitVec.eq_of_toNat_eq
  have ha := Nat.div_add_mod a.toNat pageSize
  have hb := Nat.div_add_mod b.toNat pageSize
  unfold page at hp
  unfold pgOffset at ho
  rw [← ha, ← hb, hp, ho]

theorem nextPage_toNat (addr : Addr) :
    (nextPage addr).toNat = (page addr + 1) * pageSize % 2 ^ 32 := by
  have h := addr.isLt
  simp only [nextPage, BitVec.toNat_shiftLeft, BitVec.toNat_add, BitVec.toNat_ushiftRight,
    Nat.shiftRight_eq_div_pow, Nat.shiftLeft_eq, page, pageSize]
  have h1 : (1 : Addr).toNat = 1 := rfl
  rw [h1]
  omega

theorem nextPage_eq (addr : Addr) :
    nextPage addr = addr + BitVec.ofNat 32 (pageSize - pgOffset addr) := by
  apply BitVec.eq_of_toNat_eq
  have h := addr.isLt
  rw [nextPage_toNat, BitVec.toNat_add, BitVec.toNat_ofNat]
  simp only [page, pgOffset, pageSize]
  omega

theorem pgOffset_nextPage (addr : Addr) : pgOffset (nextPage addr) = 0 := by
  rw [pgOffset, nextPage_toNat]
  simp only [pageSize]
  omega

theorem page_nextPage_ne (addr : Addr) : page (nextPage addr) ≠ page addr := by
  have h := addr.isLt
  simp only [page, nextPage_toNat, pageSize]
  omega

theorem add_nextPage (addr : Addr) (j : ℕ) : nextPage addr + BitVec.ofNat 32 j =
    addr + BitVec.ofNat 32 (pageSize - pgOffset addr + j) := by
  rw [nextPage_eq, BitVec.add_assoc, BitVec.ofNat_add]

/-! Copies to host memory. -/

theorem hostCopy_append (w : World) (q : Ptr) (value : List Byte) (b : Byte) :
    hostCopy w q (value ++ [b]) = (hostCopy w q value).hostWrite (q.add value.length) b := by
  have hz : (List.range (value ++ [b]).length).zip (value ++ [b]) =
      (List.range value.length).zip value ++ [(value.length, b)] := by
    rw [List.length_append, List.length_singleton, List.range_succ,
      List.zip_append (List.length_range)]
    rfl
  unfold hostCopy
  rw [hz, List.foldl_append]
  rfl

/-- A copy to host memory changes bytes only. -/
theorem hostCopy_eq (w : World) (q : Ptr) (value : List Byte) :
    ∃ byte, hostCopy w q value = { w with byte := byte } := by
  induction value using List.reverseRecOn with
  | nil => exact ⟨w.byte, rfl⟩
  | append_singleton value b ih =>
    obtain ⟨byte, hb⟩ := ih
    rw [hostCopy_append, hb]
    exact ⟨_, rfl⟩

theorem hostCopy_byte_of_ne {r : Ptr} (h : ∀ i < value.length, r ≠ q.add i) :
    (hostCopy w q value).byte r.block r.off = w.byte r.block r.off := by
  induction value using List.reverseRecOn with
  | nil => rfl
  | append_singleton value b ih =>
    rw [List.length_append, List.length_singleton] at h
    rw [hostCopy_append, World.hostWrite_byte_of_ne (h _ (Nat.lt_succ_self _)),
      ih fun i hi ↦ h i (hi.trans (Nat.lt_succ_self _))]

theorem hostCopy_byte_add {i : ℕ} (hi : i < value.length) :
    (hostCopy w q value).byte q.block (q.off + i) = value[i] := by
  induction value using List.reverseRecOn with
  | nil => exact absurd hi (Nat.not_lt_zero i)
  | append_singleton value b ih =>
    rw [List.length_append, List.length_singleton] at hi
    rw [hostCopy_append]
    by_cases hl : i < value.length
    · have hne : (⟨q.block, q.off + i⟩ : Ptr) ≠ q.add value.length := by
        simp only [Ptr.add, ne_eq, Ptr.mk.injEq, true_and]
        omega
      rw [List.getElem_append_left hl, ← ih hl]
      exact World.hostWrite_byte_of_ne hne b
    · obtain rfl : i = value.length := by omega
      rw [List.getElem_append_right le_rfl]
      simp [World.hostWrite, Ptr.add]

theorem hostBytes_eq (w : World) (q : Ptr) (n : ℕ) :
    hostBytes w q n = (List.range n).map fun i : ℕ ↦ w.byte q.block (q.off + i) := by
  simp [hostBytes, ← List.map_eq_flatMap]

/-! Pages. -/

/-- An access looks at one page only. -/
theorem memPt_memPtr_of_ne (hp : p ≠ page addr) :
    (w.memPtr m addr type).1.memPt m p = w.memPt m p := by
  have hg : (w.grow m (page addr)).memPt m p = w.memPt m p := by
    cases hn : w.memPt m (page addr) with
    | some e => rw [World.grow_of_isSome (Option.isSome_of_eq_some hn)]
    | none =>
      cases hgt : w.growsTo m (page addr) with
      | false => rw [World.grow_of_not hgt]
      | true =>
        rw [World.grow_eq hn hgt, World.memPt_ptMap_one, if_neg fun h ↦ hp h.2]
        rfl
  obtain h | ⟨e, -, -, h⟩ | ⟨e, -, -, -, h⟩ := World.memPtr_cases w m addr type <;> rw [h]
  · exact hg
  · exact hg
  · rw [World.memPt_cowBreak, if_neg fun h' ↦ hp h'.2, hg]

theorem memPtr_write_cow {e : PtEntry} (he : w.memPt m (page addr) = some e)
    (hwr : has e.flags pWrite) (hcow : has e.flags pCow) :
    (w.memPtr m addr .write).1 = w.cowBreak m (page addr) e := by
  simp [World.memPtr, World.grow_of_isSome (Option.isSome_of_eq_some he), he, hwr, hcow]

theorem cowBreak_byte {e : PtEntry} (hw : w.Wf) (he : w.memPt m p = some e) {off : ℕ}
    (ho : off < pageSize) :
    (w.cowBreak m p e).byte w.nextBlock off =
      w.byte (w.entryPtr e off).block (w.entryPtr e off).off := by
  have hne : (w.entryPtr e 0).block ≠ w.nextBlock := Nat.ne_of_lt (hw.entryPtr_lt he 0)
  have hin : (0 : ℤ) ≤ off ∧ (off : ℤ) < pageSize := ⟨by omega, by omega⟩
  have hmap : (w.cowBreak m p e).byte =
      ((w.mmap pageSize (fun _ ↦ 0)).2.memcpyPage w.nextBlock (w.entryPtr e 0)).byte :=
    World.ptMap_one_byte _ _ _ _ _
  have hold : (w.mmap pageSize (fun _ ↦ 0)).2.byte (w.entryPtr e 0).block =
      w.byte (w.entryPtr e 0).block := Function.update_of_ne hne _ _
  rw [hmap]
  simp only [World.memcpyPage, Function.update_self, if_pos hin, hold]
  simp [World.entryPtr]

end Isl.Emu
