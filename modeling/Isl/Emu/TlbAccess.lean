import Isl.Emu.GuestView
import Isl.Emu.MemAccess

/-!
`tlb_read` and `tlb_write` against accesses of one byte. An access that
straddles two pages looks both up before it copies a byte. A copy of the second
page for a write is then taken before the first page is written, which only
pages without memory in common allow.
-/

namespace Isl.Emu

open Memory Isl.Lib.Run

/-- Writes of one byte, up to the first that fails. -/
def stores (w : World) (m : ℕ) (addr : Addr) : List Byte → Option World
  | [] => some w
  | b :: bs =>
    let r := w.memPtr m addr .write
    r.2.bind fun ptr ↦ stores (r.1.hostWrite ptr b) m (addr + 1) bs

variable {w w' : World} {tlb : Tlb} {m p n : ℕ} {a addr : Addr} {q : Ptr} {v : Byte}
  {e : PtEntry} {type : Access} {bs cs : List Byte}

/-! The cache gives what `mem_ptr` gives. -/

theorem memPtr_tlbPage (w : World) (m : ℕ) (addr : Addr) (type : Access) :
    w.memPtr m (tlbPage addr) type = ((w.memPtr m addr type).1,
      (w.memPtr m addr type).2.map fun ptr ↦ ptr.add (-pgOffset addr)) := by
  have hptr (w : World) (e : PtEntry) :
      w.entryPtr e 0 = (w.entryPtr e (pgOffset addr)).add (-pgOffset addr) := by
    simp [World.entryPtr, Ptr.add]
  simp only [World.memPtr, page_tlbPage, pgOffset_tlbPage]
  split
  · rfl
  · split
    · rfl
    · rw [Option.map_map]
      congr 2
      funext e
      exact hptr _ e

theorem tlbHandleMiss_eq (w : World) (tlb : Tlb) (addr : Addr) (type : Access) :
    (tlbHandleMiss w tlb addr type).1 = (w.memPtr tlb.mem addr type).1 ∧
      (tlbHandleMiss w tlb addr type).2.2 = (w.memPtr tlb.mem addr type).2 := by
  have ho := tlbPage_add_pgOffset addr
  unfold tlbHandleMiss
  rw [memPtr_tlbPage]
  cases hq : (w.memPtr tlb.mem addr type).2 with
  | none => exact ⟨rfl, rfl⟩
  | some ptr =>
    refine ⟨rfl, congrArg some (congrArg (Ptr.mk ptr.block) ?_)⟩
    simp only [Ptr.add]
    omega

theorem Good.tlbReadPtr_eq (h : Good w tlb) (addr : Addr) :
    (Isl.Emu.tlbReadPtr w tlb addr).1 = (w.memPtr tlb.mem addr .read).1 ∧
      (Isl.Emu.tlbReadPtr w tlb addr).2.2 = (w.memPtr tlb.mem addr .read).2 := by
  unfold Isl.Emu.tlbReadPtr
  dsimp only
  split
  · rename_i hpage
    rw [(h.hit addr).1 hpage]
    exact ⟨rfl, rfl⟩
  · exact tlbHandleMiss_eq w tlb addr .read

theorem Good.tlbWritePtr_eq (h : Good w tlb) (addr : Addr) :
    (Isl.Emu.tlbWritePtr w tlb addr).1 = (w.memPtr tlb.mem addr .write).1 ∧
      (Isl.Emu.tlbWritePtr w tlb addr).2.2 = (w.memPtr tlb.mem addr .write).2 := by
  unfold Isl.Emu.tlbWritePtr
  dsimp only
  split
  · rename_i hpage
    rw [(h.hit addr).2 hpage]
    exact ⟨rfl, rfl⟩
  · exact tlbHandleMiss_eq w tlb addr .write

/-! Reads. -/

@[simp] theorem hostBytes_length (w : World) (q : Ptr) (n : ℕ) : (hostBytes w q n).length = n := by
  rw [hostBytes_eq, List.length_map, List.length_range]

/-- The memory of a page has the bytes of the view. -/
theorem hostBytes_holds (he : w.memPt m (page addr) = some e) (hfit : pgOffset addr + n ≤ pageSize) :
    (w.view m).Holds addr (hostBytes w (w.entryPtr e (pgOffset addr)) n) := by
  intro i hi
  rw [hostBytes_length] at hi
  have hin : pgOffset addr + i < pageSize := by omega
  have he' : w.memPt m (page (addr + BitVec.ofNat 32 i)) = some e := by rw [page_add hin, he]
  rw [GuestMem.load, World.view_perm_of he', if_neg (World.permOf_ne_unmapped _),
    World.view_byte_of he', pgOffset_add hin]
  simp only [hostBytes_eq, List.getElem_map, List.getElem_range, World.entryPtr, Nat.cast_add,
    add_assoc]

theorem loads_eq_none {g : GuestMem} {i : ℕ} (hi : i < n)
    (h : g.load (addr + BitVec.ofNat 32 i) = none) : g.loads addr n = none := by
  rw [Option.eq_none_iff_forall_ne_some]
  intro bs hbs
  obtain ⟨hlen, hholds⟩ := GuestMem.loads_eq_some.mp hbs
  have hb := hholds i (hlen ▸ hi)
  rw [h] at hb
  cases hb

/-- Where `mem_ptr` gives nothing the view has nothing to load. -/
theorem load_eq_none (hw : w.Wf) (h : (w.memPtr m addr .read).2 = none) :
    (w.view m).load addr = none := by
  have hsome := hw.memPtr_isSome m addr .read
  rw [h] at hsome
  rw [GuestMem.load, if_pos]
  by_contra hperm
  cases hsome.mpr ⟨hperm, fun ht ↦ by cases ht⟩

/-- An access to one page leaves the memory of the others where it is. -/
theorem kept_memPtr (type : Access) (hw : w.Wf) (he : w.memPt m p = some e) (hp : p ≠ page addr)
    (off : ℕ) :
    (w.memPtr m addr type).1.memPt m p = some e ∧
      (w.memPtr m addr type).1.entryPtr e off = w.entryPtr e off := by
  have hf : World.Frame m w.nextData w.nextBlock w (w.memPtr m addr type).1 :=
    World.memPtr_frame addr type
  have he' : (w.memPtr m addr type).1.memPt m p = some e := (memPt_memPtr_of_ne hp).trans he
  exact ⟨he', hf.keepsBlocks.entryPtr hw (hw.memPtr m addr type) he he' off⟩

/-- A read through a good cache loads the bytes of the view, or nothing. -/
theorem Good.tlbRead_view (h : Good w tlb) (addr : Addr) {size : ℕ} (hpos : 1 ≤ size)
    (hsize : size ≤ pageSize) :
    (Isl.Emu.tlbRead w tlb addr size).2.2 = (w.view tlb.mem).loads addr size := by
  obtain ⟨hw₁, hp₁⟩ := h.tlbReadPtr_eq addr
  have hadv := h.tlbReadPtr addr
  have hwf₁ := h.wf.memPtr tlb.mem addr .read
  have hview₁ := h.wf.view_memPtr tlb.mem addr .read tlb.mem
  have hoff := World.pgOffset_lt addr
  unfold Isl.Emu.tlbRead
  dsimp only
  split
  · rename_i hcross
    obtain ⟨hw₂, hp₂⟩ := hadv.good.tlbReadPtr_eq (nextPage addr)
    rw [hadv.mem] at hw₂ hp₂
    rw [hw₂, hp₂, hp₁, hw₁]
    have hwf₂ := hwf₁.memPtr tlb.mem (nextPage addr) .read
    have hview₂ := (hwf₁.view_memPtr tlb.mem (nextPage addr) .read tlb.mem).trans hview₁
    have hnext := nextPage_eq addr
    cases hq₁ : (w.memPtr tlb.mem addr .read).2 with
    | none =>
      have hload := load_eq_none h.wf hq₁
      rw [Option.bind_none]
      refine (loads_eq_none (i := 0) (by omega) ?_).symm
      rwa [BitVec.add_zero]
    | some ptr₁ =>
      rw [Option.bind_some]
      cases hq₂ : ((w.memPtr tlb.mem addr .read).1.memPtr tlb.mem (nextPage addr) .read).2 with
      | none =>
        have hload := load_eq_none hwf₁ hq₂
        rw [hview₁, hnext] at hload
        exact (loads_eq_none (by omega) hload).symm
      | some ptr₂ =>
        obtain ⟨e₁, he₁, -, rfl⟩ := World.memPtr_entry hq₁
        obtain ⟨e₂, he₂, -, rfl⟩ := World.memPtr_entry hq₂
        obtain ⟨he₁', hptr⟩ := kept_memPtr .read hwf₁ he₁ (page_nextPage_ne addr).symm
          (pgOffset addr)
        rw [Option.map_some, ← hview₂, ← hptr]
        refine (GuestMem.loads_eq_some.mpr ⟨?_, GuestMem.holds_append.mpr ⟨?_, ?_⟩⟩).symm
        · rw [List.length_append, hostBytes_length, hostBytes_length]
          omega
        · exact hostBytes_holds he₁' (by omega)
        · rw [hostBytes_length, ← hnext]
          refine hostBytes_holds he₂ ?_
          rw [pgOffset_nextPage]
          omega
  · rw [hw₁, hp₁]
    cases hq₁ : (w.memPtr tlb.mem addr .read).2 with
    | none =>
      have hload := load_eq_none h.wf hq₁
      rw [Option.map_none]
      refine (loads_eq_none (i := 0) (by omega) ?_).symm
      rwa [BitVec.add_zero]
    | some ptr₁ =>
      obtain ⟨e₁, he₁, -, rfl⟩ := World.memPtr_entry hq₁
      rw [Option.map_some, ← hview₁]
      refine (GuestMem.loads_eq_some.mpr ⟨hostBytes_length _ _ _, ?_⟩).symm
      exact hostBytes_holds he₁ (by omega)

/-! Writes to one page. -/

theorem stores_append (w : World) (m : ℕ) (addr : Addr) (bs cs : List Byte) :
    stores w m addr (bs ++ cs) =
      (stores w m addr bs).bind fun w' ↦ stores w' m (addr + BitVec.ofNat 32 bs.length) cs := by
  induction bs generalizing w addr with
  | nil => simp [stores]
  | cons b bs ih =>
    simp only [List.cons_append, stores, List.length_cons, Option.bind_assoc, ih,
      GuestMem.add_one_add]

theorem hostCopy_memPt (w : World) (q : Ptr) (bs : List Byte) :
    (hostCopy w q bs).memPt = w.memPt ∧ (hostCopy w q bs).entryPtr = w.entryPtr := by
  obtain ⟨byte, hb⟩ := hostCopy_eq w q bs
  rw [hb]
  exact ⟨rfl, rfl⟩

theorem stores_writable (he : w.memPt m (page addr) = some e) (hpw : pWritable e.flags)
    (hfit : pgOffset addr + bs.length ≤ pageSize) :
    stores w m addr bs = some (hostCopy w (w.entryPtr e (pgOffset addr)) bs) := by
  induction bs using List.reverseRecOn with
  | nil => rfl
  | append_singleton bs b ih =>
    rw [List.length_append, List.length_singleton] at hfit
    have hin : pgOffset addr + bs.length < pageSize := by omega
    obtain ⟨hpt, hentry⟩ := hostCopy_memPt w (w.entryPtr e (pgOffset addr)) bs
    have he' : (hostCopy w (w.entryPtr e (pgOffset addr)) bs).memPt m
        (page (addr + BitVec.ofNat 32 bs.length)) = some e := by
      rw [hpt, page_add hin, he]
    rw [stores_append, ih (by omega), Option.bind_some, stores, World.memPtr_write_of he' hpw,
      Option.bind_some, stores, hostCopy_append, hentry, pgOffset_add hin]
    simp only [World.entryPtr, Ptr.add, Nat.cast_add, add_assoc]

/-- Writes to one page look it up once. -/
theorem stores_page (w : World) (m : ℕ) (hpos : bs ≠ []) (hfit : pgOffset addr + bs.length ≤ pageSize) :
    stores w m addr bs = (w.memPtr m addr .write).2.map fun ptr ↦
      hostCopy (w.memPtr m addr .write).1 ptr bs := by
  cases hq : (w.memPtr m addr .write).2 with
  | none =>
    cases bs with
    | nil => exact absurd rfl hpos
    | cons b bs => simp [stores, hq]
  | some ptr =>
    obtain ⟨e, he, hpw, rfl⟩ := World.memPtr_entry hq
    rw [Option.map_some, ← stores_writable he (hpw rfl) hfit]
    cases bs with
    | nil => exact absurd rfl hpos
    | cons b bs => rw [stores, stores, World.memPtr_write_of he (hpw rfl), hq]

/-! A byte of one page and the lookup of another. -/

section HostWrite

variable {b : ℕ → ℤ → Byte}

/-- The page tables do not read host memory. -/
theorem ptMap_withByte (w : World) (b : ℕ → ℤ → Byte) (m p : ℕ) (memory : Option ℕ) (flags : Flags) :
    ({ w with byte := b }.ptMap m p 1 memory flags).1 =
      { (w.ptMap m p 1 memory flags).1 with byte := b } := by
  have hrelease (w : World) (d : ℕ) :
      ({ w with byte := b } : World).dataRelease d = { w.dataRelease d with byte := b } := by
    unfold World.dataRelease World.munmap
    dsimp only
    split
    · rfl
    · split
      · split <;> rfl
      · rfl
  have hevict (w : World) : ({ w with byte := b } : World).evict m p =
      { w.evict m p with byte := b } := by
    have hpt : ({ w with byte := b } : World).memPt m p = w.memPt m p := rfl
    unfold World.evict
    rw [hpt]
    cases he : w.memPt m p with
    | none => rfl
    | some e =>
      have hdel : ({ w with byte := b } : World).memPtDel m p = { w.memPtDel m p with byte := b } :=
        rfl
      simp only [Option.isSome_some, if_true, World.unmapOne, World.ptUnmapPage, hpt, he, hdel,
        hrelease]
      rfl
  cases memory with
  | none => rfl
  | some block =>
    have hnew : ({ w with byte := b } : World).dataNew block pageSize =
        { w.dataNew block pageSize with byte := b } := rfl
    rw [World.ptMap_one, World.ptMap_one, hnew, hevict]
    rfl

theorem ptMap_hostWrite (w : World) (q : Ptr) (v : Byte) (m p : ℕ) (memory : Option ℕ)
    (flags : Flags) : ((w.hostWrite q v).ptMap m p 1 memory flags).1 =
      (w.ptMap m p 1 memory flags).1.hostWrite q v := by
  have hbyte : (w.ptMap m p 1 memory flags).1.byte = w.byte := by
    cases memory with
    | none => rfl
    | some block => exact World.ptMap_one_byte w m p block flags
  have h := ptMap_withByte w (w.hostWrite q v).byte m p memory flags
  refine h.trans ?_
  simp only [World.hostWrite, hbyte]

theorem mmap_hostWrite (hq : q.block < w.nextBlock) (v : Byte) (size : ℕ) (c : ℤ → Byte) :
    (w.hostWrite q v).mmap size c = ((w.mmap size c).1, (w.mmap size c).2.hostWrite q v) := by
  have hne : q.block ≠ w.nextBlock := hq.ne
  unfold World.mmap
  split
  · rfl
  · simp only [World.hostWrite, Prod.mk.injEq, true_and, World.mk.injEq]
    rw [Function.update_of_ne hne, Function.update_comm hne]
    exact ⟨rfl, trivial⟩

theorem memcpyPage_hostWrite {dst : ℕ} {src : Ptr} (hdst : q.block ≠ dst) (v : Byte)
    (hsrc : ∀ i : ℕ, i < pageSize → src.add i ≠ q) :
    (w.hostWrite q v).memcpyPage dst src = (w.memcpyPage dst src).hostWrite q v := by
  have hread (i : ℤ) (h : 0 ≤ i ∧ i < pageSize) :
      (w.hostWrite q v).byte src.block (src.off + i) = w.byte src.block (src.off + i) := by
    obtain ⟨j, rfl⟩ := Int.eq_ofNat_of_zero_le h.1
    exact World.hostWrite_byte_of_ne (hsrc j (by omega)) v
  have hcopy : (fun i : ℤ ↦ if 0 ≤ i ∧ i < pageSize then
        (w.hostWrite q v).byte src.block (src.off + i) else (w.hostWrite q v).byte dst i) =
      fun i : ℤ ↦ if 0 ≤ i ∧ i < pageSize then w.byte src.block (src.off + i) else w.byte dst i := by
    funext i
    split
    · rename_i hi
      exact hread i hi
    · simp [World.hostWrite, hdst.symm]
  have hdst' : (Function.update w.byte dst fun i ↦ if 0 ≤ i ∧ i < pageSize then
      w.byte src.block (src.off + i) else w.byte dst i) q.block = w.byte q.block :=
    Function.update_of_ne hdst _ _
  unfold World.memcpyPage
  rw [hcopy]
  simp only [World.hostWrite, hdst', Function.update_comm hdst]

end HostWrite

/-- No byte of the page is the one at `q`. -/
def PageApart (w : World) (m p : ℕ) (q : Ptr) : Prop :=
  ∀ e, w.memPt m p = some e → ∀ i : ℕ, i < pageSize → w.entryPtr e i ≠ q

theorem grow_hostWrite (hq : q.block < w.nextBlock) (v : Byte) (m p : ℕ) :
    (w.hostWrite q v).grow m p = (w.grow m p).hostWrite q v := by
  have hpt : (w.hostWrite q v).memPt m p = w.memPt m p := rfl
  have hg : (w.hostWrite q v).growsTo m p = w.growsTo m p := World.growsTo_congr (fun _ ↦ rfl) p
  cases hn : w.memPt m p with
  | some e =>
    rw [World.grow_of_isSome (Option.isSome_of_eq_some hn),
      World.grow_of_isSome (Option.isSome_of_eq_some (hpt.trans hn))]
  | none =>
    cases hgt : w.growsTo m p with
    | false => rw [World.grow_of_not hgt, World.grow_of_not (hg.trans hgt)]
    | true =>
      rw [World.grow_eq hn hgt, World.grow_eq (hpt.trans hn) (hg.trans hgt), mmap_hostWrite hq]
      exact ptMap_hostWrite _ q v m p _ _

theorem cowBreak_hostWrite (hq : q.block < w.nextBlock) (v : Byte) (he : w.memPt m p = some e)
    (hap : PageApart w m p q) :
    (w.hostWrite q v).cowBreak m p e = (w.cowBreak m p e).hostWrite q v := by
  have hne : q.block ≠ w.nextBlock := hq.ne
  unfold World.cowBreak
  rw [mmap_hostWrite hq]
  dsimp only
  rw [memcpyPage_hostWrite (q := q)]
  · exact ptMap_hostWrite _ q v m p _ _
  · exact hne
  · intro i hi
    have h := hap e he i hi
    have hadd : (w.entryPtr e 0).add i = w.entryPtr e i := by simp [World.entryPtr, Ptr.add]
    rw [← hadd] at h
    exact h

/-- A byte of another page does not matter to an access. -/
theorem memPtr_hostWrite (hw : w.Wf) (hq : q.block < w.nextBlock) (v : Byte)
    (hap : PageApart w m (page addr) q) :
    (w.hostWrite q v).memPtr m addr type =
      ((w.memPtr m addr type).1.hostWrite q v, (w.memPtr m addr type).2) := by
  have hf : World.Frame m 0 0 w (w.grow m (page addr)) :=
    World.grow_frame (Nat.zero_le _) (Nat.zero_le _) _
  have hqg : q.block < (w.grow m (page addr)).nextBlock := hq.trans_le hf.nextBlock
  have hapg : PageApart (w.grow m (page addr)) m (page addr) q := by
    intro e he i hi
    cases hn : w.memPt m (page addr) with
    | some f =>
      rw [World.grow_of_isSome (Option.isSome_of_eq_some hn)] at he ⊢
      exact hap e he i hi
    | none =>
      cases hgt : w.growsTo m (page addr) with
      | false =>
        rw [World.grow_of_not hgt, hn] at he
        cases he
      | true =>
        obtain ⟨f, hfe, -, hptr, -⟩ := hw.grow_entry hn hgt
        rw [he] at hfe
        cases hfe
        rw [hptr]
        rintro rfl
        exact absurd hq (lt_irrefl _)
  unfold World.memPtr
  dsimp only
  rw [grow_hostWrite hq]
  have hpt : ((w.grow m (page addr)).hostWrite q v).memPt m (page addr) =
      (w.grow m (page addr)).memPt m (page addr) := rfl
  rw [hpt]
  cases he : (w.grow m (page addr)).memPt m (page addr) with
  | none => rfl
  | some e =>
    dsimp only
    split
    · rfl
    · split
      · rw [cowBreak_hostWrite hqg v he hapg]
        rfl
      · rfl

theorem memPtr_hostCopy (addr : Addr) (type : Access) (bs : List Byte) (hw : w.Wf) (hq : q.block < w.nextBlock)
    (hap : ∀ i < bs.length, PageApart w m (page addr) (q.add i)) :
    (hostCopy w q bs).memPtr m addr type =
      (hostCopy (w.memPtr m addr type).1 q bs, (w.memPtr m addr type).2) := by
  induction bs using List.reverseRecOn with
  | nil => rfl
  | append_singleton bs b ih =>
    rw [List.length_append, List.length_singleton] at hap
    obtain ⟨byte, hb⟩ := hostCopy_eq w q bs
    obtain ⟨hpt, hentry⟩ := hostCopy_memPt w q bs
    have hw' : (hostCopy w q bs).Wf := by
      rw [hb]
      exact hw.congr rfl rfl rfl le_rfl le_rfl fun _ _ ↦ rfl
    have hq' : (q.add bs.length).block < (hostCopy w q bs).nextBlock := by
      rw [hb]
      exact hq
    have hap' : PageApart (hostCopy w q bs) m (page addr) (q.add bs.length) := by
      intro e he i hi
      rw [hpt] at he
      rw [hentry]
      exact hap bs.length (Nat.lt_succ_self _) e he i hi
    rw [hostCopy_append, memPtr_hostWrite hw' hq' b hap',
      ih fun i hi ↦ hap i (hi.trans (Nat.lt_succ_self _)), hostCopy_append]

/-- Different pages have no byte in common. -/
theorem apart_of_ne (hw : w.Wf) (hu : w.Unaliased) (he : w.memPt m (page addr) = some e)
    (hp : page addr ≠ p) {i : ℕ} (hi : pgOffset addr + i < pageSize) :
    PageApart w m p ((w.entryPtr e (pgOffset addr)).add i) := by
  intro f hf j hj heq
  have hoff {k : ℕ} (hk : k < pageSize) : pgOffset (BitVec.ofNat 32 k) = k := by
    have hk32 : k < 2 ^ 32 := hk.trans (by decide)
    rw [pgOffset, BitVec.toNat_ofNat, Nat.mod_eq_of_lt hk32, Nat.mod_eq_of_lt hk]
  have hadd : (w.entryPtr e (pgOffset addr)).add i =
      w.entryPtr e (pgOffset (BitVec.ofNat 32 (pgOffset addr + i))) := by
    rw [hoff hi]
    simp only [World.entryPtr, Ptr.add, Nat.cast_add, add_assoc]
  rw [← hoff hj, hadd] at heq
  exact hp (hu _ _ _ _ _ _ hf he (hw.samePage_of_entryPtr hf he heq)).symm

/-! Writes. -/

theorem view_perm_hostWrite (w : World) (q : Ptr) (v : Byte) (m : ℕ) :
    ((w.hostWrite q v).view m).perm = (w.view m).perm := rfl

/-- All writes of one byte succeed when each of them would. -/
theorem stores_isSome (hw : w.Wf) :
    (stores w m addr bs).isSome ↔
      ∀ i < bs.length, (w.memPtr m (addr + BitVec.ofNat 32 i) .write).2.isSome := by
  have hperm {w : World} (hw : w.Wf) (a : Addr) :
      (w.memPtr m a .write).2.isSome ↔ (w.view m).perm (page a) = .readWrite := by
    rw [hw.memPtr_isSome]
    constructor
    · exact fun h ↦ h.2 rfl
    · intro h
      refine ⟨?_, fun _ ↦ h⟩
      rw [h]
      exact Perm.noConfusion
  simp only [hperm hw]
  induction bs generalizing w addr with
  | nil => simp [stores]
  | cons b bs ih =>
    have hview := hw.view_memPtr m addr .write m
    have hw' := hw.memPtr m addr .write
    have hfirst := hperm hw addr
    rw [stores]
    cases hq : (w.memPtr m addr .write).2 with
    | none =>
      rw [hq] at hfirst
      simp only [Option.bind_none, Option.isSome_none, Bool.false_eq_true, false_iff]
      intro h
      have h0 := h 0 (Nat.succ_pos _)
      rw [BitVec.add_zero] at h0
      cases hfirst.mpr h0
    | some q =>
      rw [hq] at hfirst
      have hrest : (stores ((w.memPtr m addr .write).1.hostWrite q b) m (addr + 1) bs).isSome ↔ _ :=
        ih (hw'.hostWrite q b)
      rw [Option.bind_some, hrest, view_perm_hostWrite, hview]
      constructor
      · intro h i hi
        cases i with
        | zero =>
          rw [BitVec.add_zero]
          exact hfirst.mp rfl
        | succ i =>
          rw [← GuestMem.add_one_add]
          exact h i (Nat.lt_of_succ_lt_succ hi)
      · intro h i hi
        rw [GuestMem.add_one_add]
        exact h (i + 1) (Nat.succ_lt_succ hi)

/-- All bytes that a read gives, or the failing byte of one that gives nothing. -/
theorem loads_isSome {g : GuestMem} :
    (g.loads addr n).isSome ↔ ∀ i < n, (g.load (addr + BitVec.ofNat 32 i)).isSome := by
  constructor
  · intro h i hi
    by_contra hnone
    rw [loads_eq_none hi (Option.not_isSome_iff_eq_none.mp hnone)] at h
    cases h
  · intro h
    have hholds : g.Holds addr
        ((List.range n).map fun i ↦ (g.load (addr + BitVec.ofNat 32 i)).getD 0) := by
      intro i hi
      rw [List.length_map, List.length_range] at hi
      obtain ⟨b, hb⟩ := Option.isSome_iff_exists.mp (h i hi)
      simp [hb]
    have hloads := GuestMem.loads_of_holds hholds
    rw [List.length_map, List.length_range] at hloads
    rw [hloads]
    rfl

/-- What a write through a good cache does: the bytes go in one after another,
or the view of every address space stays what it was. -/
theorem Good.tlbWrite_stores (h : Good w tlb) (hu : w.Unaliased) (addr : Addr)
    (hpos : 1 ≤ bs.length) (hsize : bs.length ≤ pageSize) :
    if (Isl.Emu.tlbWrite w tlb addr bs).2.2 then
      stores w tlb.mem addr bs = some (Isl.Emu.tlbWrite w tlb addr bs).1
    else stores w tlb.mem addr bs = none ∧
      (Isl.Emu.tlbWrite w tlb addr bs).1.Wf ∧
      ∀ m, (Isl.Emu.tlbWrite w tlb addr bs).1.view m = w.view m := by
  obtain ⟨hw₁, hp₁⟩ := h.tlbWritePtr_eq addr
  have hadv := h.tlbWritePtr addr
  have hwf₁ := h.wf.memPtr tlb.mem addr .write
  have hu₁ := hu.memPtr h.wf tlb.mem addr .write
  have hview₁ := h.wf.view_memPtr tlb.mem addr .write
  have hoff := World.pgOffset_lt addr
  unfold Isl.Emu.tlbWrite
  dsimp only
  split
  · rename_i hcross
    obtain ⟨hw₂, hp₂⟩ := hadv.good.tlbWritePtr_eq (nextPage addr)
    rw [hadv.mem] at hw₂ hp₂
    rw [hw₂, hp₂, hp₁, hw₁]
    have hwf₂ := hwf₁.memPtr tlb.mem (nextPage addr) .write
    have hview₂ (m : ℕ) := (hwf₁.view_memPtr tlb.mem (nextPage addr) .write m).trans (hview₁ m)
    have hnext := nextPage_eq addr
    have htake : (bs.take (pageSize - pgOffset addr)).length = pageSize - pgOffset addr := by
      rw [List.length_take]
      omega
    have hdrop : (bs.drop (pageSize - pgOffset addr)).length =
        bs.length - (pageSize - pgOffset addr) := List.length_drop
    -- the write to the first page, and then the one to the second
    have hsplit : stores w tlb.mem addr bs =
        (stores w tlb.mem addr (bs.take (pageSize - pgOffset addr))).bind fun w' ↦
          stores w' tlb.mem (nextPage addr) (bs.drop (pageSize - pgOffset addr)) := by
      have happ := stores_append w tlb.mem addr (bs.take (pageSize - pgOffset addr))
        (bs.drop (pageSize - pgOffset addr))
      rwa [List.take_append_drop, htake, ← hnext] at happ
    have hfirst := stores_page w tlb.mem
      (List.ne_nil_of_length_pos (by omega : 0 < (bs.take (pageSize - pgOffset addr)).length))
      (by omega : pgOffset addr + _ ≤ pageSize)
    have hsecond (w' : World) := stores_page w' tlb.mem
      (List.ne_nil_of_length_pos (by omega : 0 < (bs.drop (pageSize - pgOffset addr)).length))
      (by rw [pgOffset_nextPage]; omega : pgOffset (nextPage addr) + _ ≤ pageSize)
    cases hq₁ : (w.memPtr tlb.mem addr .write).2 with
    | none =>
      refine ⟨?_, hwf₂, hview₂⟩
      rw [hsplit, hfirst, hq₁, Option.map_none, Option.bind_none]
    | some ptr₁ =>
      obtain ⟨e₁, he₁, -, rfl⟩ := World.memPtr_entry hq₁
      have hlook := memPtr_hostCopy (nextPage addr) .write (bs.take (pageSize - pgOffset addr))
        hwf₁ (hwf₁.entryPtr_lt he₁ (pgOffset addr))
        fun i hi ↦ apart_of_ne hwf₁ hu₁ he₁ (page_nextPage_ne addr).symm (by omega)
      rw [hsplit, hfirst, hq₁, Option.map_some, Option.bind_some, hsecond, hlook]
      cases hq₂ : ((w.memPtr tlb.mem addr .write).1.memPtr tlb.mem (nextPage addr) .write).2 with
      | none => exact ⟨rfl, hwf₂, hview₂⟩
      | some ptr₂ => rfl
  · rename_i hin
    rw [hw₁, hp₁]
    have hone := stores_page w tlb.mem (List.ne_nil_of_length_pos hpos)
      (by omega : pgOffset addr + _ ≤ pageSize)
    rw [hone]
    cases hq₁ : (w.memPtr tlb.mem addr .write).2 with
    | none => exact ⟨rfl, hwf₁, hview₁⟩
    | some ptr₁ => rfl

end Isl.Emu
