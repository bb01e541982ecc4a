import Isl.Emu.CpuRun
import Isl.Emu.GuestMem
import Isl.Emu.TlbPages
import Isl.Kernel.Brk

/-!
One access of a thread through its own translation cache: the bytes it meets,
and the translations it leaves to the other threads of the address space.
-/

namespace Isl.Kernel.Threads

open Isl.Emu Isl.Emu.Memory Isl.Kernel.Mmap

variable {w w' w₁ w₂ : World} {m p k : ℕ} {a addr : Addr} {q : Ptr} {tlb tlb' : Tlb}
  {written : Addr → Option Byte} {value : List Byte} {type : Access}

/-! Bytes. -/

/-- The pointer is the one the page table gives. -/
def PointsTo (w : World) (m : ℕ) (addr : Addr) (q : Ptr) : Prop :=
  ∃ e, w.memPt m (page addr) = some e ∧ q = w.entryPtr e (pgOffset addr)

theorem byteAt_of_memPt {e : PtEntry} (hw : w.Wf) (he : w.memPt m (page a) = some e) :
    byteAt w m a = some (w.byte (w.entryPtr e (pgOffset a)).block (w.entryPtr e (pgOffset a)).off) := by
  have hl := hw.live_entryPtr he (pgOffset a)
  simp only [byteAt, he, Option.bind_some, World.hostRead, hl, if_true]

theorem PointsTo.byteAt_add (h : PointsTo w m addr q) (hw : w.Wf) (hk : pgOffset addr + k < pageSize) :
    byteAt w m (addr + BitVec.ofNat 32 k) = some (w.byte q.block (q.off + k)) := by
  obtain ⟨e, he, rfl⟩ := h
  have he' : w.memPt m (page (addr + BitVec.ofNat 32 k)) = some e := by rw [page_add hk, he]
  rw [byteAt_of_memPt hw he', pgOffset_add hk]
  simp only [World.entryPtr, Nat.cast_add, add_assoc]

/-- What was written last, after a write of `value` to `addr`. -/
def record (written : Addr → Option Byte) (addr : Addr) (value : List Byte) (a : Addr) : Option Byte :=
  value[GuestMem.dist addr a]?.or (written a)

/-- What was written last is what is mapped. -/
def Holds (w : World) (m : ℕ) (written : Addr → Option Byte) : Prop :=
  ∀ a b, written a = some b → byteAt w m a = some b

/-- A write to the memory of a page is read back from it, and from no other
address. -/
theorem Holds.hostCopy (h : Holds w m written) (hw : w.Wf) (hu : w.Unaliased)
    (hq : PointsTo w m addr q) (value : List Byte)
    (hfit : pgOffset addr + value.length ≤ pageSize) :
    Holds (hostCopy w q value) m (record written addr value) := by
  have hw' : (Isl.Emu.hostCopy w q value).Wf := by
    obtain ⟨byte, hb⟩ := hostCopy_eq w q value
    rw [hb]
    exact hw.congr rfl rfl rfl le_rfl le_rfl fun _ _ ↦ rfl
  have hpt : (Isl.Emu.hostCopy w q value).memPt = w.memPt ∧
      (Isl.Emu.hostCopy w q value).entryPtr = w.entryPtr := by
    obtain ⟨byte, hb⟩ := hostCopy_eq w q value
    rw [hb]
    exact ⟨rfl, rfl⟩
  have hlen32 : value.length < 2 ^ 32 := by
    simp only [pageSize] at hfit
    omega
  intro a b hab
  unfold record at hab
  cases hv : value[GuestMem.dist addr a]? with
  | some c =>
    obtain ⟨hlt, rfl⟩ := List.getElem?_eq_some_iff.mp hv
    rw [hv, Option.some_or, Option.some.injEq] at hab
    have ha : a = addr + BitVec.ofNat 32 (GuestMem.dist addr a) := by
      rw [GuestMem.dist, BitVec.ofNat_toNat, BitVec.setWidth_eq, BitVec.add_comm,
        BitVec.sub_add_cancel]
    have hq' : PointsTo (Isl.Emu.hostCopy w q value) m addr q := by
      obtain ⟨e, he, rfl⟩ := hq
      exact ⟨e, by rw [hpt.1, he], by rw [hpt.2]⟩
    rw [ha, hq'.byteAt_add hw' (by omega), hostCopy_byte_add hlt, hab]
  | none =>
    rw [hv, Option.none_or] at hab
    have hbyte := h a b hab
    cases he : w.memPt m (page a) with
    | none => simp [byteAt, he] at hbyte
    | some f =>
      have he' : (Isl.Emu.hostCopy w q value).memPt m (page a) = some f := by rw [hpt.1, he]
      rw [byteAt_of_memPt hw' he', hpt.2, hostCopy_byte_of_ne, ← byteAt_of_memPt hw he, hbyte]
      intro i hi heq
      obtain ⟨e, hme, rfl⟩ := hq
      have hin : pgOffset addr + i < pageSize := by omega
      have hptr : (w.entryPtr e (pgOffset addr)).add i =
          w.entryPtr e (pgOffset (addr + BitVec.ofNat 32 i)) := by
        rw [pgOffset_add hin]
        simp only [World.entryPtr, Ptr.add, Nat.cast_add, add_assoc]
      rw [hptr] at heq
      have hs := hw.samePage_of_entryPtr he hme heq
      have hpage := hu _ _ _ _ _ _ he hme hs
      have hoff : pgOffset a = pgOffset (addr + BitVec.ofNat 32 i) := by
        have ho := congrArg Ptr.off heq
        simp only [World.entryPtr, hs.2] at ho
        omega
      obtain rfl : a = addr + BitVec.ofNat 32 i := addr_ext (by rw [hpage, page_add hin]) hoff
      rw [GuestMem.dist_add addr (hi.trans hlen32), List.getElem?_eq_none_iff] at hv
      omega

theorem dist_add_left (addr a : Addr) {n : ℕ} (hn : n ≤ 2 ^ 32) :
    GuestMem.dist (addr + BitVec.ofNat 32 n) a =
      (GuestMem.dist addr a + (2 ^ 32 - n)) % 2 ^ 32 := by
  have ha := a.isLt
  have haddr := addr.isLt
  simp only [GuestMem.dist, BitVec.toNat_sub, BitVec.toNat_add, BitVec.toNat_ofNat]
  omega

/-- A write in two parts is one write. -/
theorem record_append (written : Addr → Option Byte) (addr : Addr) (u v : List Byte)
    (hlen : u.length + v.length ≤ 2 ^ 32) :
    record written addr (u ++ v) =
      record (record written addr u) (addr + BitVec.ofNat 32 u.length) v := by
  funext a
  have hd := dist_add_left addr a (n := u.length) (by omega)
  have hlt : GuestMem.dist addr a < 2 ^ 32 := (a - addr).isLt
  unfold record
  by_cases hu : GuestMem.dist addr a < u.length
  · have hv : v[GuestMem.dist (addr + BitVec.ofNat 32 u.length) a]? = none := by
      rw [List.getElem?_eq_none_iff, hd]
      omega
    rw [List.getElem?_append_left hu, hv, Option.none_or]
  · have hge := Nat.le_of_not_lt hu
    have hdist : GuestMem.dist (addr + BitVec.ofNat 32 u.length) a =
        GuestMem.dist addr a - u.length := by
      rw [hd]
      omega
    rw [List.getElem?_append_right hge, hdist, List.getElem?_eq_none hge, Option.none_or]

/-! Pages. -/

/-- The page is still mapped to the memory it was mapped to. -/
def KeepsPage (w w' : World) (m p : ℕ) : Prop :=
  ∀ e, w.memPt m p = some e →
    ∃ f, w'.memPt m p = some f ∧ ∀ off, w'.entryPtr f off = w.entryPtr e off

theorem KeepsPage.trans (h : KeepsPage w w₁ m p) (h' : KeepsPage w₁ w₂ m p) :
    KeepsPage w w₂ m p := by
  intro e he
  obtain ⟨f, hf, hfe⟩ := h e he
  obtain ⟨g, hg, hgf⟩ := h' f hf
  exact ⟨g, hg, fun off ↦ (hgf off).trans (hfe off)⟩

theorem KeepsPage.of_kept (hw : w.Wf) (hw' : w'.Wf) (hb : World.KeepsBlocks w w')
    (h : ∀ e, w.memPt m p = some e → w'.memPt m p = some e) : KeepsPage w w' m p :=
  fun e he ↦ ⟨e, h e he, hb.entryPtr hw hw' he (h e he)⟩

theorem PointsTo.keep (h : PointsTo w m addr q) (hk : KeepsPage w w' m (page addr)) :
    PointsTo w' m addr q := by
  obtain ⟨e, he, rfl⟩ := h
  obtain ⟨f, hf, hfe⟩ := hk e he
  exact ⟨f, hf, (hfe _).symm⟩

/-- A write to the page first gives it a copy of its memory. -/
def BreaksCow (w : World) (m p : ℕ) : Prop :=
  ∃ e, w.memPt m p = some e ∧ has e.flags pWrite ∧ has e.flags pCow

theorem memPtr_kept {e : PtEntry} (he : w.memPt m p = some e)
    (h : ¬(type = .write ∧ p = page addr ∧ BreaksCow w m p)) :
    (w.memPtr m addr type).1.memPt m p = some e := by
  by_cases hp : p = page addr
  · subst hp
    cases type with
    | read => exact World.memPtr_kept he (.inr (.inr rfl))
    | write =>
      by_cases hwr : has e.flags pWrite
      · have hcow : has e.flags pCow = false := by
          by_contra hc
          exact h ⟨rfl, rfl, e, he, hwr, by simpa using hc⟩
        have hpw : pWritable e.flags := by simp [pWritable, hwr, hcow]
        rw [World.memPtr_write_of he hpw, he]
      · refine World.memPtr_kept he (.inr (.inl ?_))
        simp [World.memPtr, World.grow_of_isSome (Option.isSome_of_eq_some he), he, hwr]
  · exact World.memPtr_kept he (.inl hp)

/-- A copied page has the bytes it had. -/
theorem byteAt_cowBreak {e : PtEntry} (hw : w.Wf) (hm : m < w.nextMem)
    (he : w.memPt m (page a) = some e) : byteAt (w.cowBreak m (page a) e) m a = byteAt w m a := by
  have hw' := hw.cowBreak e hm (World.page_lt a)
  obtain ⟨f, hf, hptr⟩ := hw.cowBreak_entry m (page a) e
  rw [byteAt_of_memPt hw' hf, byteAt_of_memPt hw he, hptr, cowBreak_byte hw he (World.pgOffset_lt a)]

/-- What the other threads see of an access: only a page in `broken` gets other
memory, and then the counter moves. -/
structure Accessed (m : ℕ) (broken : ℕ → Prop) (w w' : World) : Prop where
  wf : w'.Wf
  unaliased : w'.Unaliased
  nextMem : w'.nextMem = w.nextMem
  changes : (w.mem m).changes ≤ (w'.mem m).changes
  page : ∀ p, ¬broken p → KeepsPage w w' m p
  still : (w'.mem m).changes = (w.mem m).changes → ∀ p, KeepsPage w w' m p

variable {broken broken' : ℕ → Prop}

theorem KeepsPage.refl (w : World) (m p : ℕ) : KeepsPage w w m p :=
  fun e he ↦ ⟨e, he, fun _ ↦ rfl⟩

theorem Accessed.refl (hw : w.Wf) (hu : w.Unaliased) : Accessed m broken w w :=
  ⟨hw, hu, rfl, le_rfl, fun p _ ↦ .refl w m p, fun _ p ↦ .refl w m p⟩

theorem Accessed.trans (h : Accessed m broken w w₁) (h' : Accessed m broken w₁ w₂) :
    Accessed m broken w w₂ where
  wf := h'.wf
  unaliased := h'.unaliased
  nextMem := h'.nextMem.trans h.nextMem
  changes := h.changes.trans h'.changes
  page p hp := (h.page p hp).trans (h'.page p hp)
  still heq p := by
    have h₁ := h.changes
    have h₂ := h'.changes
    exact (h.still (by omega) p).trans (h'.still (by omega) p)

theorem Accessed.mono (h : Accessed m broken w w') (hb : ∀ p, broken p → broken' p) :
    Accessed m broken' w w' :=
  ⟨h.wf, h.unaliased, h.nextMem, h.changes, fun p hp ↦ h.page p fun hp' ↦ hp (hb p hp'), h.still⟩

theorem memPtr_accessed (hw : w.Wf) (hu : w.Unaliased) (addr : Addr) (type : Access) :
    Accessed m (fun p ↦ type = .write ∧ p = page addr ∧ BreaksCow w m p) w
      (w.memPtr m addr type).1 := by
  have hw' := hw.memPtr m addr type
  have hf : World.Frame m w.nextData w.nextBlock w (w.memPtr m addr type).1 :=
    World.memPtr_frame addr type
  have hst : World.Stable m w (w.memPtr m addr type).1 := World.memPtr_stable addr type
  refine ⟨hw', hu.memPtr hw m addr type, hf.nextMem, hst.mono, fun p hp ↦ ?_, fun heq p ↦ ?_⟩
  · exact .of_kept hw hw' hf.keepsBlocks fun e he ↦ memPtr_kept he hp
  · exact .of_kept hw hw' hf.keepsBlocks fun e he ↦ hst.kept heq p e he

/-- An access changes no byte, the ones of a page it copies included. -/
theorem Holds.memPtr (h : Holds w m written) (hw : w.Wf) (addr : Addr) (type : Access) :
    Holds (w.memPtr m addr type).1 m written := by
  have hw' := hw.memPtr m addr type
  have hf : World.Frame m w.nextData w.nextBlock w (w.memPtr m addr type).1 :=
    World.memPtr_frame addr type
  intro a b hab
  have hb := h a b hab
  cases he : w.memPt m (page a) with
  | none => simp [byteAt, he] at hb
  | some e =>
    by_cases hbr : type = .write ∧ page a = page addr ∧ BreaksCow w m (page a)
    · obtain ⟨rfl, hp, f, hf, hwr, hcow⟩ := hbr
      have hcopy := byteAt_cowBreak hw (hw.inRange he).1 he
      rw [he] at hf
      cases hf
      rw [memPtr_write_cow (hp ▸ he) hwr hcow, ← hp, hcopy, hb]
    · rw [byteAt_of_frame hf hw hw' ((memPtr_kept he hbr).trans he.symm), hb]

theorem hostCopy_accessed (hw : w.Wf) (hu : w.Unaliased) (q : Ptr) (value : List Byte) :
    Accessed m (fun _ ↦ False) w (hostCopy w q value) := by
  obtain ⟨byte, hb⟩ := hostCopy_eq w q value
  rw [hb]
  have hkeep (p : ℕ) : KeepsPage w { w with byte := byte } m p := fun e he ↦ ⟨e, he, fun _ ↦ rfl⟩
  exact ⟨hw.congr rfl rfl rfl le_rfl le_rfl fun _ _ ↦ rfl, hu, rfl, le_rfl, fun p _ ↦ hkeep p,
    fun _ p ↦ hkeep p⟩

/-! The cache of a thread. -/

/-- The entry holds the memory its page is mapped to, whatever the protection. -/
def Translates (w : World) (m : ℕ) (t : TlbEntry) : Prop :=
  ∃ e, w.memPt m (page t.page) = some e ∧ t.dataMinusAddr = (w.entryPtr e 0).add (-t.page.toNat)

theorem Translates.keep {t : TlbEntry} (h : Translates w m t)
    (hk : KeepsPage w w' m (page t.page)) : Translates w' m t := by
  obtain ⟨e, he, hd⟩ := h
  obtain ⟨f, hf, hfe⟩ := hk e he
  exact ⟨f, hf, by rw [hfe, hd]⟩

theorem Translates.pointsTo {t : TlbEntry} (h : Translates w m t) (ht : t.page = tlbPage addr) :
    PointsTo w m addr (t.ptr addr) := by
  obtain ⟨e, he, hd⟩ := h
  rw [ht, page_tlbPage] at he
  refine ⟨e, he, ?_⟩
  have ho := tlbPage_add_pgOffset addr
  simp only [TlbEntry.ptr, hd, ht, World.entryPtr, Ptr.add, Ptr.mk.injEq, true_and]
  omega

/-- The cache of a running thread. -/
structure Cached (w : World) (m : ℕ) (tlb : Tlb) : Prop where
  mem : tlb.mem = m
  slots : ∀ i, InSlot i (tlb.entries i)
  translated : ∀ i, (tlb.entries i).page ≠ tlbPageEmpty → Translates w m (tlb.entries i)

theorem Cached.keep (h : Cached w m tlb) (hk : ∀ p, KeepsPage w w' m p) : Cached w' m tlb :=
  ⟨h.mem, h.slots, fun i hi ↦ (h.translated i hi).keep (hk _)⟩

/-- What an access through the cache leaves: the thread's cache is good, and a
pointer it gives is the one of the page table. -/
structure Gives (m : ℕ) (broken : ℕ → Prop) (w : World) (addr : Addr)
    (r : World × Tlb × Option Ptr) : Prop where
  accessed : Accessed m broken w r.1
  holds : ∀ {written}, Holds w m written → Holds r.1 m written
  cached : Cached r.1 m r.2.1
  pointsTo : ∀ q, r.2.2 = some q → PointsTo r.1 m addr q

theorem Cached.tlbHandleMiss (h : Cached w m tlb) (hw : w.Wf) (hu : w.Unaliased) (addr : Addr)
    (type : Access) :
    Gives m (fun p ↦ type = .write ∧ p = page addr ∧ BreaksCow w m p) w addr
      (tlbHandleMiss w tlb addr type) := by
  obtain rfl := h.mem
  have hacc := memPtr_accessed (m := tlb.mem) hw hu (tlbPage addr) type
  rw [page_tlbPage] at hacc
  have hkeep (p : ℕ) (hp : p ≠ page addr) := hacc.page p fun hb ↦ hp hb.2.1
  have hholds {written : Addr → Option Byte} (hh : Holds w tlb.mem written) :=
    hh.memPtr hw (tlbPage addr) type
  unfold Isl.Emu.tlbHandleMiss
  dsimp only
  cases hq : (w.memPtr tlb.mem (tlbPage addr) type).2 with
  | none =>
    refine ⟨hacc, hholds, h.keep fun p ↦ ?_, nofun⟩
    have hw' := hw.memPtr tlb.mem (tlbPage addr) type
    have hf : World.Frame tlb.mem w.nextData w.nextBlock w
      (w.memPtr tlb.mem (tlbPage addr) type).1 := World.memPtr_frame (tlbPage addr) type
    exact .of_kept hw hw' hf.keepsBlocks fun e he ↦ World.memPtr_kept he (.inr (.inl hq))
  | some q =>
    obtain ⟨e, he, -, rfl⟩ := World.memPtr_entry hq
    rw [page_tlbPage] at he
    rw [pgOffset_tlbPage]
    let entry : TlbEntry := ⟨tlbPage addr, if type = .write then tlbPage addr else tlbPageEmpty,
      ((w.memPtr tlb.mem (tlbPage addr) type).1.entryPtr e 0).add (-(tlbPage addr).toNat)⟩
    have hnew : Translates (w.memPtr tlb.mem (tlbPage addr) type).1 tlb.mem entry :=
      ⟨e, by rw [page_tlbPage, he], rfl⟩
    have hslot : InSlot (tlbIndex addr) entry := by
      refine .inr ⟨tlbPage_tlbPage addr, tlbIndex_tlbPage addr, ?_⟩
      dsimp only [entry]
      split
      · exact .inl rfl
      · exact .inr rfl
    refine ⟨hacc, hholds, ⟨rfl, fun i ↦ ?_, fun i hi ↦ ?_⟩, fun q hq' ↦ ?_⟩
    · by_cases hix : i = tlbIndex addr
      · subst hix
        simpa only [Function.update_self] using hslot
      · simpa only [Function.update_of_ne hix] using h.slots i
    · by_cases hix : i = tlbIndex addr
      · subst hix
        simpa only [Function.update_self] using hnew
      · simp only [Function.update_of_ne hix] at hi ⊢
        refine (h.translated i hi).keep (hkeep _ fun hp ↦ hix ?_)
        exact (h.slots i).index_eq hi hp
    · cases hq'
      exact hnew.pointsTo rfl

theorem Cached.tlbReadPtr (h : Cached w m tlb) (hw : w.Wf) (hu : w.Unaliased) (addr : Addr) :
    Gives m (fun _ ↦ False) w addr (tlbReadPtr w tlb addr) := by
  unfold Isl.Emu.tlbReadPtr
  dsimp only
  split
  · rename_i hp
    have ht := h.translated (tlbIndex addr) (hp ▸ tlbPage_ne_empty addr)
    refine ⟨.refl hw hu, id, h, fun q hq ↦ ?_⟩
    cases hq
    exact ht.pointsTo hp
  · have hm := h.tlbHandleMiss hw hu addr .read
    exact ⟨hm.accessed.mono fun p hp ↦ (nomatch hp.1), hm.holds, hm.cached, hm.pointsTo⟩

theorem Cached.tlbWritePtr (h : Cached w m tlb) (hw : w.Wf) (hu : w.Unaliased) (addr : Addr) :
    Gives m (fun p ↦ p = page addr ∧ BreaksCow w m p) w addr (tlbWritePtr w tlb addr) := by
  unfold Isl.Emu.tlbWritePtr
  dsimp only
  split
  · rename_i hp
    have hpage := (h.slots (tlbIndex addr)).page_eq hp
    have ht := h.translated (tlbIndex addr) (hpage ▸ tlbPage_ne_empty addr)
    refine ⟨.refl hw hu, id, ⟨h.mem, h.slots, h.translated⟩, fun q hq ↦ ?_⟩
    cases hq
    exact ht.pointsTo hpage
  · have hm := h.tlbHandleMiss hw hu addr .write
    exact ⟨hm.accessed.mono fun p hp ↦ hp.2, hm.holds, hm.cached, hm.pointsTo⟩

/-! Reads and writes. -/

theorem PointsTo.hostBytes {n : ℕ} (h : PointsTo w m addr q) (hw : w.Wf)
    (hfit : pgOffset addr + n ≤ pageSize) (hk : k < n) :
    (hostBytes w q n)[k]? = byteAt w m (addr + BitVec.ofNat 32 k) := by
  rw [h.byteAt_add hw (by omega), hostBytes_eq, List.getElem?_map, List.getElem?_range hk, Option.map_some]

/-- A read gives the bytes of the page table. -/
theorem Cached.tlbRead (h : Cached w m tlb) (hw : w.Wf) (hu : w.Unaliased) (addr : Addr)
    {size : ℕ} (hsize : size ≤ pageSize) :
    Accessed m (fun _ ↦ False) w (tlbRead w tlb addr size).1 ∧
      (∀ {written}, Holds w m written → Holds (tlbRead w tlb addr size).1 m written) ∧
      Cached (tlbRead w tlb addr size).1 m (tlbRead w tlb addr size).2.1 ∧
      ∀ bytes, (tlbRead w tlb addr size).2.2 = some bytes → ∀ k < size,
        bytes[k]? = byteAt (tlbRead w tlb addr size).1 m (addr + BitVec.ofNat 32 k) := by
  have h₁ := h.tlbReadPtr hw hu addr
  have hoff := World.pgOffset_lt addr
  unfold Isl.Emu.tlbRead
  dsimp only
  split
  · rename_i hcross
    have h₂ := h₁.cached.tlbReadPtr h₁.accessed.wf h₁.accessed.unaliased (nextPage addr)
    refine ⟨h₁.accessed.trans h₂.accessed, fun hh ↦ h₂.holds (h₁.holds hh), h₂.cached,
      fun bytes hbytes k hk ↦ ?_⟩
    obtain ⟨ptr1, hp1, hrest⟩ := Option.bind_eq_some_iff.mp hbytes
    obtain ⟨ptr2, hp2, rfl⟩ := Option.map_eq_some_iff.mp hrest
    have hpt1 := (h₁.pointsTo ptr1 hp1).keep (h₂.accessed.page _ id)
    have hpt2 := h₂.pointsTo ptr2 hp2
    have hl (w : World) : (hostBytes w ptr1 (pageSize - pgOffset addr)).length =
        pageSize - pgOffset addr := by
      simp [hostBytes]
    by_cases hlt : k < pageSize - pgOffset addr
    · rw [List.getElem?_append_left (by rwa [hl])]
      exact hpt1.hostBytes h₂.accessed.wf (by omega) hlt
    · have hnext := add_nextPage addr (k - (pageSize - pgOffset addr))
      rw [Nat.add_sub_cancel' (Nat.le_of_not_lt hlt)] at hnext
      rw [List.getElem?_append_right (by rw [hl]; exact Nat.le_of_not_lt hlt), hl, ← hnext]
      refine hpt2.hostBytes h₂.accessed.wf ?_ (by omega)
      rw [pgOffset_nextPage]
      omega
  · rename_i hin
    refine ⟨h₁.accessed, h₁.holds, h₁.cached, fun bytes hbytes k hk ↦ ?_⟩
    obtain ⟨ptr, hp, rfl⟩ := Option.map_eq_some_iff.mp hbytes
    exact (h₁.pointsTo ptr hp).hostBytes h₁.accessed.wf (by omega) hk

/-- The pages that a write of `n` bytes looks up. -/
def Touches (addr : Addr) (n p : ℕ) : Prop :=
  p = page addr ∨ (pageSize - n < pgOffset addr ∧ p = page (nextPage addr))

theorem memPt_tlbWritePtr_of_ne (hp : p ≠ page addr) :
    (tlbWritePtr w tlb addr).1.memPt tlb.mem p = w.memPt tlb.mem p := by
  unfold tlbWritePtr tlbHandleMiss
  dsimp only
  split
  · rfl
  · split <;> exact memPt_memPtr_of_ne (page_tlbPage addr ▸ hp)

/-- A write is the last one when it succeeds, and only pages that it looks up
get other memory. -/
theorem Cached.tlbWrite (h : Cached w m tlb) (hw : w.Wf) (hu : w.Unaliased) (addr : Addr)
    {value : List Byte} (hlen : value.length ≤ pageSize) (hh : Holds w m written) :
    Accessed m (fun p ↦ Touches addr value.length p ∧ BreaksCow w m p) w
        (tlbWrite w tlb addr value).1 ∧
      Cached (tlbWrite w tlb addr value).1 m (tlbWrite w tlb addr value).2.1 ∧
      Holds (tlbWrite w tlb addr value).1 m
        (if (tlbWrite w tlb addr value).2.2 then record written addr value else written) := by
  have h₁ := h.tlbWritePtr hw hu addr
  have hoff := World.pgOffset_lt addr
  have hacc₁ : Accessed m (fun p ↦ Touches addr value.length p ∧ BreaksCow w m p) w
      (Isl.Emu.tlbWritePtr w tlb addr).1 := h₁.accessed.mono fun p hp ↦ ⟨.inl hp.1, hp.2⟩
  unfold Isl.Emu.tlbWrite
  dsimp only
  split
  · rename_i hcross
    have h₂ := h₁.cached.tlbWritePtr h₁.accessed.wf h₁.accessed.unaliased (nextPage addr)
    have hacc₂ := hacc₁.trans <| h₂.accessed.mono fun p ⟨hp, e, he, hflags⟩ ↦ by
      obtain rfl := h.mem
      subst hp
      rw [memPt_tlbWritePtr_of_ne (page_nextPage_ne addr)] at he
      exact ⟨.inr ⟨hcross, rfl⟩, e, he, hflags⟩
    have hholds := h₂.holds (h₁.holds hh)
    split
    · rename_i ptr1 ptr2 hp1 hp2
      have hpt1 := (h₁.pointsTo ptr1 hp1).keep
        (h₂.accessed.page _ fun hb ↦ page_nextPage_ne addr hb.1.symm)
      have hpt2 := h₂.pointsTo ptr2 hp2
      have hw₂ := h₂.accessed.wf
      have hu₂ := h₂.accessed.unaliased
      -- the bytes in the first page, then the ones in the second
      have hcopy₁ := hostCopy_accessed (m := m) hw₂ hu₂ ptr1
        (value.take (pageSize - pgOffset addr))
      have hcopy₂ := hostCopy_accessed (m := m) hcopy₁.wf
        hcopy₁.unaliased ptr2 (value.drop (pageSize - pgOffset addr))
      have hcopy := hcopy₁.trans hcopy₂
      refine ⟨hacc₂.trans (hcopy.mono fun _ hp ↦ hp.elim), h₂.cached.keep fun p ↦ hcopy.page p id, ?_⟩
      have hpart : (value.take (pageSize - pgOffset addr)).length = pageSize - pgOffset addr := by
        rw [List.length_take]
        omega
      have hrest : (value.drop (pageSize - pgOffset addr)).length =
          value.length - (pageSize - pgOffset addr) := List.length_drop
      have hfirst := hholds.hostCopy hw₂ hu₂ hpt1 (value.take (pageSize - pgOffset addr))
        (by omega)
      have hsecond := hfirst.hostCopy hcopy₁.wf hcopy₁.unaliased
        (hpt2.keep (hcopy₁.page _ id)) (value.drop (pageSize - pgOffset addr))
        (by rw [pgOffset_nextPage]; omega)
      have happ := record_append written addr (value.take (pageSize - pgOffset addr))
        (value.drop (pageSize - pgOffset addr)) (by simp only [pageSize] at *; omega)
      rw [List.take_append_drop, hpart, ← nextPage_eq] at happ
      rwa [if_pos rfl, happ]
    · exact ⟨hacc₂, h₂.cached, by simpa using hholds⟩
  · rename_i hin
    split
    · rename_i ptr hp
      have hcopy := hostCopy_accessed (m := m) h₁.accessed.wf
        h₁.accessed.unaliased ptr value
      refine ⟨hacc₁.trans (hcopy.mono fun _ hp ↦ hp.elim), h₁.cached.keep fun p ↦ hcopy.page p id, ?_⟩
      rw [if_pos rfl]
      exact (h₁.holds hh).hostCopy h₁.accessed.wf h₁.accessed.unaliased (h₁.pointsTo ptr hp)
        value (by omega)
    · exact ⟨hacc₁, h₁.cached, by simpa using h₁.holds hh⟩

end Isl.Kernel.Threads
