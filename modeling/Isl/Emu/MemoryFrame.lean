import Isl.Emu.MemoryInv

/-!
What an operation on one address space leaves alone: the other tables, the
blocks that were there before it, and, while the change counter stands still,
the entries of the space itself.
-/

namespace Isl.Emu.Memory.World

variable {w w' w₁ w₂ : World} {a m m' p p' d n k : ℕ}

/-- A step on space `a`, compared with a state that had allocated the blocks
below `n` and the host mappings below `k`. -/
structure Frame (a n k : ℕ) (w w' : World) : Prop where
  nextMem : w'.nextMem = w.nextMem
  nextBlock : w.nextBlock ≤ w'.nextBlock
  nextData : w.nextData ≤ w'.nextData
  other : ∀ m, m ≠ a → w'.mem m = w.mem m
  own : ∀ p e, w'.memPt a p = some e → w.memPt a p = some e ∨ n ≤ e.data
  data : ∀ d x, d < n → w'.data d = some x → ∃ y, w.data d = some y ∧ y.data = x.data
  byte : ∀ b, b < k → w'.byte b = w.byte b

theorem Frame.refl (w : World) : Frame a n k w w :=
  ⟨rfl, le_rfl, le_rfl, fun _ _ ↦ rfl, fun _ _ h ↦ .inl h, fun _ x _ h ↦ ⟨x, h, rfl⟩,
    fun _ _ ↦ rfl⟩

theorem Frame.trans (h : Frame a n k w w₁) (h' : Frame a n k w₁ w₂) : Frame a n k w w₂ := by
  refine ⟨h'.nextMem.trans h.nextMem, h.nextBlock.trans h'.nextBlock,
    h.nextData.trans h'.nextData, fun m hm ↦ ?_, fun p e he ↦ ?_, fun d x hd hx ↦ ?_, fun b hb ↦ ?_⟩
  · rw [h'.other m hm, h.other m hm]
  · rcases h'.own p e he with he | he
    · exact h.own p e he
    · exact .inr he
  · obtain ⟨y, hy, hyx⟩ := h'.data d x hd hx
    obtain ⟨z, hz, hzy⟩ := h.data d y hd hy
    exact ⟨z, hz, hzy.trans hyx⟩
  · rw [h'.byte b hb, h.byte b hb]

theorem Frame.memPt (h : Frame a n k w w') (hm : m ≠ a) (p : ℕ) : w'.memPt m p = w.memPt m p := by
  rw [World.memPt, h.other m hm, World.memPt]

theorem Frame.mono {n' k' : ℕ} (h : Frame a n k w w') (hn : n' ≤ n) (hk : k' ≤ k) :
    Frame a n' k' w w' := by
  refine ⟨h.nextMem, h.nextBlock, h.nextData, h.other, fun p e he ↦ ?_,
    fun d x hd hx ↦ h.data d x (hd.trans_le hn) hx, fun b hb ↦ h.byte b (hb.trans_le hk)⟩
  rcases h.own p e he with he | he
  · exact .inl he
  · exact .inr (hn.trans he)

theorem foldl_frame {α : Type*} {f : World → α → World} (hf : ∀ w x, Frame a n k w (f w x))
    (xs : List α) (w : World) : Frame a n k w (xs.foldl f w) := by
  induction xs generalizing w with
  | nil => exact .refl w
  | cons x xs ih => exact (hf w x).trans (ih (f w x))

theorem frame_memChanged (a : ℕ) : Frame a n k w (w.memChanged a) := by
  refine ⟨rfl, le_rfl, le_rfl, fun m hm ↦ ?_, fun _ _ h ↦ .inl ?_, fun _ x _ h ↦ ⟨x, h, rfl⟩,
    fun _ _ ↦ rfl⟩
  · exact Function.update_of_ne hm _ _
  · rwa [memChanged_memPt] at h

theorem dataRelease_frame (d' : ℕ) : Frame a n k w (w.dataRelease d') := by
  have hpt : (w.dataRelease d').memPt = w.memPt := by
    unfold memPt
    rw [dataRelease_mem]
  refine ⟨dataRelease_nextMem _ _, ?_, ?_, fun m _ ↦ congrFun (dataRelease_mem _ _) m, fun _ _ h ↦ .inl (hpt ▸ h),
    fun d x _ hx ↦ ?_, fun b _ ↦ ?_⟩
  · unfold dataRelease
    split
    · exact le_rfl
    · split
      · exact (munmap_nextBlock _ _).ge
      · exact le_rfl
  · unfold dataRelease
    split
    · exact le_rfl
    · split
      · exact (munmap_nextData _ _).ge
      · exact le_rfl
  · by_cases h : d = d'
    · subst h
      unfold dataRelease at hx
      split at hx
      · exact ⟨x, hx, rfl⟩
      · rename_i y hy
        split at hx <;> simp only [Function.update_self] at hx <;> cases hx
        exact ⟨y, hy, rfl⟩
    · rw [dataRelease_data_of_ne h] at hx
      exact ⟨x, hx, rfl⟩
  · unfold dataRelease
    split
    · rfl
    · split
      · exact congrFun (munmap_byte _ _) b
      · rfl

theorem frame_setPt_none (p : ℕ) : Frame a n k w (w.setPt a p none) := by
  refine ⟨rfl, le_rfl, le_rfl, fun m hm ↦ ?_, fun q e he ↦ .inl ?_, fun _ x _ h ↦ ⟨x, h, rfl⟩,
    fun _ _ ↦ rfl⟩
  · exact Function.update_of_ne hm _ _
  · rw [memPt_setPt] at he
    split at he
    · cases he
    · exact he

theorem frame_setPt {e : PtEntry} (he : n ≤ e.data) : Frame a n k w (w.setPt a p (some e)) := by
  refine ⟨rfl, le_rfl, le_rfl, fun m hm ↦ ?_, fun q f hf ↦ ?_, fun _ x _ h ↦ ⟨x, h, rfl⟩,
    fun _ _ ↦ rfl⟩
  · exact Function.update_of_ne hm _ _
  · rw [memPt_setPt] at hf
    split at hf
    · cases hf
      exact .inr he
    · exact .inl hf

theorem dataRetain_frame (d' : ℕ) : Frame a n k w (w.dataRetain d') := by
  refine ⟨rfl, le_rfl, le_rfl, fun _ _ ↦ rfl, fun _ _ h ↦ .inl h, fun d x _ hx ↦ ?_, fun _ _ ↦ rfl⟩
  by_cases h : d = d'
  · subst h
    simp only [dataRetain, Function.update_self] at hx
    obtain ⟨y, hy, rfl⟩ := Option.map_eq_some_iff.mp hx
    exact ⟨y, hy, rfl⟩
  · simp only [dataRetain, Function.update_of_ne h] at hx
    exact ⟨x, hx, rfl⟩

theorem dataNew_frame (hn : n ≤ w.nextData) (b s : ℕ) : Frame a n k w (w.dataNew b s) := by
  refine ⟨rfl, le_rfl, Nat.le_succ _, fun _ _ ↦ rfl, fun _ _ h ↦ .inl h, fun d x hd hx ↦ ?_,
    fun _ _ ↦ rfl⟩
  have hne : d ≠ w.nextData := by omega
  simp only [dataNew, Function.update_of_ne hne] at hx
  exact ⟨x, hx, rfl⟩

theorem mmap_frame (hk : k ≤ w.nextBlock) (s : ℕ) (c : ℤ → Byte) :
    Frame a n k w (w.mmap s c).2 := by
  unfold mmap
  split
  · exact .refl w
  · refine ⟨rfl, Nat.le_succ _, le_rfl, fun _ _ ↦ rfl, fun _ _ h ↦ .inl h, fun _ x _ h ↦ ⟨x, h, rfl⟩,
      fun b hb ↦ ?_⟩
    exact Function.update_of_ne (by omega) _ _

theorem memcpyPage_frame {b : ℕ} (hb : k ≤ b) (q : Ptr) : Frame a n k w (w.memcpyPage b q) := by
  refine ⟨rfl, le_rfl, le_rfl, fun _ _ ↦ rfl, fun _ _ h ↦ .inl h, fun _ x _ h ↦ ⟨x, h, rfl⟩,
    fun b' hb' ↦ ?_⟩
  exact Function.update_of_ne (by omega) _ _

theorem ptUnmapPage_frame (p : ℕ) : Frame a n k w (w.ptUnmapPage a p) := by
  unfold ptUnmapPage
  split
  · exact .refl w
  · exact (frame_setPt_none p).trans (dataRelease_frame _)

theorem ptUnmap_frame (start pages : ℕ) (force : Bool) :
    Frame a n k w (w.ptUnmap a start pages force).1 := by
  unfold ptUnmap
  split
  · exact .refl w
  · exact (foldl_frame (fun _ p ↦ ptUnmapPage_frame p) _ w).trans (frame_memChanged a)

theorem unmapOne_frame (p : ℕ) : Frame a n k w (w.unmapOne a p) :=
  (ptUnmapPage_frame p).trans (frame_memChanged a)

theorem evict_frame (p : ℕ) : Frame a n k w (w.evict a p) := by
  unfold evict
  split
  · exact unmapOne_frame p
  · exact .refl w

theorem ptMapPage_frame (hd : n ≤ d) (start : ℕ) (flags : Flags) (p : ℕ) :
    Frame a n k w (ptMapPage a d start flags w p) := by
  rw [ptMapPage_eq]
  exact ((evict_frame p).trans (dataRetain_frame d)).trans (frame_setPt hd)

theorem ptMap_frame (hn : n ≤ w.nextData) (start pages : ℕ) (memory : Option ℕ) (flags : Flags) :
    Frame a n k w (w.ptMap a start pages memory flags).1 := by
  unfold ptMap
  cases memory with
  | none => exact .refl w
  | some b =>
    exact (dataNew_frame hn _ _).trans
      (foldl_frame (fun _ p ↦ ptMapPage_frame hn start flags p) _ _)

theorem mmap_nextData (s : ℕ) (c : ℤ → Byte) : (w.mmap s c).2.nextData = w.nextData := by
  unfold mmap
  split <;> rfl

theorem ptMapFresh_frame (hn : n ≤ w.nextData) (hk : k ≤ w.nextBlock) (start pages : ℕ)
    (c : ℤ → Byte) (flags : Flags) : Frame a n k w (w.ptMapFresh a start pages c flags).1 := by
  refine (mmap_frame hk (pages * pageSize % 2 ^ 32) c).trans (ptMap_frame ?_ _ _ _ _)
  rwa [mmap_nextData]

theorem ptMapNothing_frame (hn : n ≤ w.nextData) (hk : k ≤ w.nextBlock) (start pages : ℕ)
    (flags : Flags) : Frame a n k w (w.ptMapNothing a start pages flags).1 := by
  unfold ptMapNothing
  split
  · exact .refl w
  · exact ptMapFresh_frame hn hk start pages _ _

theorem cowBreak_frame (hn : n ≤ w.nextData) (hk : k ≤ w.nextBlock) (p : ℕ) (e : PtEntry) :
    Frame a n k w (w.cowBreak a p e) := by
  have hcopy : k ≤ ((w.mmap pageSize (fun _ ↦ 0)).1.getD 0) := by simpa [mmap] using hk
  refine ((mmap_frame hk pageSize _).trans (memcpyPage_frame hcopy _)).trans (ptMap_frame ?_ _ _ _ _)
  exact hn.trans (mmap_nextData _ _).ge

theorem grow_frame (hn : n ≤ w.nextData) (hk : k ≤ w.nextBlock) (p : ℕ) :
    Frame a n k w (w.grow a p) := by
  unfold grow
  split
  · exact ptMapNothing_frame hn hk p 1 _
  · exact .refl w

theorem memPtr_frame (addr : Addr) (type : Access) :
    Frame a w.nextData w.nextBlock w (w.memPtr a addr type).1 := by
  have hg : Frame a w.nextData w.nextBlock w (w.grow a (page addr)) := grow_frame le_rfl le_rfl _
  obtain h | ⟨e, -, -, h⟩ | ⟨e, -, -, -, h⟩ := memPtr_cases w a addr type <;> rw [h]
  · exact hg
  · exact hg
  · exact hg.trans (cowBreak_frame hg.nextData hg.nextBlock _ e)

theorem hostWrite_frame (q : Ptr) (v : Byte) : Frame a n 0 w (w.hostWrite q v) :=
  ⟨rfl, le_rfl, le_rfl, fun _ _ ↦ rfl, fun _ _ h ↦ .inl h, fun _ x _ h ↦ ⟨x, h, rfl⟩,
    fun b hb ↦ absurd hb (Nat.not_lt_zero b)⟩

theorem store_frame (addr : Addr) (v : Byte) : Frame a w.nextData 0 w (w.store a addr v) := by
  have h : Frame a w.nextData w.nextBlock w (w.memPtr a addr .write).1 := memPtr_frame addr .write
  unfold store
  dsimp only
  split
  · exact h.mono le_rfl (Nat.zero_le _)
  · exact (h.mono le_rfl (Nat.zero_le _)).trans (hostWrite_frame _ v)

/-! One page of fresh host memory. -/

theorem ptMap_one (w : World) (m p b : ℕ) (flags : Flags) :
    (w.ptMap m p 1 (some b) flags).1 =
      (((w.dataNew b pageSize).evict m p).dataRetain w.nextData).setPt m p
        (some ⟨w.nextData, 0, flags⟩) := by
  have hs : 1 * pageSize % 2 ^ 32 = pageSize := by decide
  simp only [ptMap, List.range'_one, List.foldl_cons, List.foldl_nil, ptMapPage_eq, hs,
    Nat.sub_self, Nat.zero_mul]

theorem memPt_ptMap_one (w : World) (m p b : ℕ) (flags : Flags) (m' p' : ℕ) :
    (w.ptMap m p 1 (some b) flags).1.memPt m' p' =
      if m' = m ∧ p' = p then some ⟨w.nextData, 0, flags⟩ else w.memPt m' p' := by
  rw [ptMap_one, memPt_setPt]
  split
  · rfl
  · rename_i h
    rw [dataRetain_memPt, memPt_evict, if_neg h, dataNew_memPt]

theorem Wf.data_fresh (hw : w.Wf) : w.data w.nextData = none := by
  cases h : w.data w.nextData with
  | none => rfl
  | some x => exact absurd (hw.dataLt h) (lt_irrefl _)

theorem Wf.slot_ne_fresh (hw : w.Wf) (i : ℕ × ℕ) : w.slot i ≠ some w.nextData := by
  intro hs
  obtain ⟨e, he, hd⟩ := Option.map_eq_some_iff.mp hs
  obtain ⟨x, hx⟩ := hw.mapped he
  rw [hd, hw.data_fresh] at hx
  cases hx

theorem Wf.ptMap_one_entryPtr (hw : w.Wf) (m p b : ℕ) (flags : Flags) (off : ℕ) :
    (w.ptMap m p 1 (some b) flags).1.entryPtr ⟨w.nextData, 0, flags⟩ off = ⟨b, off⟩ := by
  have hne : (w.dataNew b pageSize).slot (m, p) ≠ some w.nextData := hw.slot_ne_fresh (m, p)
  have hd := evict_data_of_ne hne
  have hn : (w.dataNew b pageSize).data w.nextData = some ⟨b, pageSize, 0⟩ :=
    Function.update_self _ _ _
  rw [ptMap_one]
  simp [entryPtr, dataRetain, hd, hn]

theorem ptMap_one_byte (w : World) (m p b : ℕ) (flags : Flags) :
    (w.ptMap m p 1 (some b) flags).1.byte = w.byte := by
  funext i
  have h : Frame m 0 (i + 1) w (w.ptMap m p 1 (some b) flags).1 := ptMap_frame (Nat.zero_le _) _ _ _ _
  exact h.byte i (Nat.lt_succ_self i)

theorem grow_of_isSome (h : (w.memPt m p).isSome) : w.grow m p = w := by
  have hn : (w.memPt m p).isNone = false := by simpa using h
  simp [grow, hn]

theorem grow_of_not (h : w.growsTo m p = false) : w.grow m p = w := by
  simp [grow, h]

theorem grow_eq (hn : w.memPt m p = none) (hg : w.growsTo m p) :
    w.grow m p = ((w.mmap pageSize (fun _ ↦ 0)).2.ptMap m p 1 (some w.nextBlock)
      (pWrite ||| pGrowsdown ||| pAnon)).1 := by
  simp [grow, hn, hg, ptMapNothing, ptMapFresh, mmap]

/-- The stack page a grown region gives is zero and its own. -/
theorem Wf.grow_entry (hw : w.Wf) (hn : w.memPt m p = none) (hg : w.growsTo m p) :
    ∃ e, (w.grow m p).memPt m p = some e ∧ pWritable e.flags ∧
      (∀ off, (w.grow m p).entryPtr e off = ⟨w.nextBlock, off⟩) ∧
      (w.grow m p).byte w.nextBlock = fun _ ↦ 0 := by
  have hw' := hw.mmap pageSize (fun _ ↦ 0)
  have hd : (w.mmap pageSize (fun _ ↦ 0)).2.nextData = w.nextData := mmap_nextData _ _
  have hf : pWritable (pWrite ||| pGrowsdown ||| pAnon) := by decide
  rw [grow_eq hn hg]
  refine ⟨⟨w.nextData, 0, pWrite ||| pGrowsdown ||| pAnon⟩, ?_, hf, fun off ↦ ?_, ?_⟩
  · rw [ptMap_one, memPt_setPt_self, hd]
  · have h := hw'.ptMap_one_entryPtr m p w.nextBlock (pWrite ||| pGrowsdown ||| pAnon) off
    rwa [hd] at h
  · rw [ptMap_one_byte]
    exact Function.update_self _ _ _

theorem Wf.live_entryPtr {e : PtEntry} (hw : w.Wf) (he : w.memPt m p = some e) (off : ℕ) :
    w.live (w.entryPtr e off).block := by
  obtain ⟨x, hx⟩ := hw.mapped he
  have hl := hw.blockLive hx
  simpa [entryPtr, hx] using hl

theorem Wf.entryPtr_lt {e : PtEntry} (hw : w.Wf) (he : w.memPt m p = some e) (off : ℕ) :
    (w.entryPtr e off).block < w.nextBlock := by
  obtain ⟨x, hx⟩ := hw.mapped he
  have hb := hw.blockLt hx
  simpa [entryPtr, hx] using hb

theorem memPtr_read (w : World) (m : ℕ) (addr : Addr) :
    w.memPtr m addr .read = (w.grow m (page addr),
      ((w.grow m (page addr)).memPt m (page addr)).map
        ((w.grow m (page addr)).entryPtr · (pgOffset addr))) := by
  unfold memPtr
  dsimp only
  split
  · rename_i h
    rw [h]
    rfl
  · simp

theorem Wf.load_mapped {addr : Addr} {e : PtEntry} (hw : w.Wf)
    (he : w.memPt m (page addr) = some e) :
    (w.load m addr).2 = some (w.byte (w.entryPtr e (pgOffset addr)).block
      (w.entryPtr e (pgOffset addr)).off) := by
  have hl := hw.live_entryPtr he (pgOffset addr)
  simp [World.load, memPtr_read, grow_of_isSome (Option.isSome_of_eq_some he), he, hostRead, hl]

theorem Wf.load_unmapped {addr : Addr} (hw : w.Wf) (hn : w.memPt m (page addr) = none) :
    (w.load m addr).2 = if w.growsTo m (page addr) then some 0 else none := by
  cases hg : w.growsTo m (page addr) with
  | true =>
    obtain ⟨e, he, -, hp, hb⟩ := hw.grow_entry hn hg
    have hl := (hw.grow' m (page_lt addr)).live_entryPtr he (pgOffset addr)
    rw [hp] at hl
    simp [World.load, memPtr_read, he, hostRead, hp, hb, hl]
  | false => simp [World.load, memPtr_read, grow_of_not hg, hn]

theorem memPt_cowBreak (w : World) (m p : ℕ) (e : PtEntry) (m' p' : ℕ) :
    (w.cowBreak m p e).memPt m' p' =
      if m' = m ∧ p' = p then some ⟨w.nextData, 0, e.flags &&& ~~~pCow⟩ else w.memPt m' p' :=
  memPt_ptMap_one _ m p w.nextBlock _ m' p'

theorem pWritable_uncow {flags : Flags} (h : has flags pWrite) : pWritable (flags &&& ~~~pCow) := by
  have hb : ~~~pCow &&& pWrite = pWrite := by decide
  have hc : ~~~pCow &&& pCow = 0 := by decide
  simp only [has, bne_iff_ne, ne_eq] at h
  have h' : ¬flags &&& pWrite = 0#32 := h
  simp [pWritable, has, BitVec.and_assoc, hb, hc, h']

theorem Wf.cowBreak_entry (hw : w.Wf) (m p : ℕ) (e : PtEntry) :
    ∃ f, (w.cowBreak m p e).memPt m p = some f ∧
      ∀ off, (w.cowBreak m p e).entryPtr f off = ⟨w.nextBlock, off⟩ := by
  have hw' := (hw.mmap pageSize (fun _ ↦ 0)).memcpyPage w.nextBlock
    ((w.mmap pageSize (fun _ ↦ 0)).2.entryPtr e 0)
  refine ⟨⟨w.nextData, 0, e.flags &&& ~~~pCow⟩, ?_, fun off ↦ ?_⟩
  · rw [memPt_cowBreak, if_pos ⟨rfl, rfl⟩]
  · exact hw'.ptMap_one_entryPtr m p w.nextBlock _ off

/-- What a write access can give: nothing, a pointer into memory made for it,
or the entry's own memory when it is writable and private. -/
theorem Wf.memPtr_write (hw : w.Wf) (m : ℕ) (addr : Addr) :
    (w.memPtr m addr .write).2 = none ∨
    (∃ q, (w.memPtr m addr .write).2 = some q ∧ w.nextBlock ≤ q.block) ∨
    ∃ e, w.memPt m (page addr) = some e ∧ pWritable e.flags ∧
      w.memPtr m addr .write = (w, some (w.entryPtr e (pgOffset addr))) := by
  have hg : Frame m 0 0 w (w.grow m (page addr)) := grow_frame (Nat.zero_le _) (Nat.zero_le _) _
  have hwg := hw.grow' m (page_lt addr)
  obtain h | ⟨e, he, hpw, h⟩ | ⟨e, -, -, -, h⟩ := memPtr_cases w m addr .write
  · exact .inl (congrArg Prod.snd h)
  · cases hs : w.memPt m (page addr) with
    | some e' =>
      rw [grow_of_isSome (Option.isSome_of_eq_some hs)] at he h
      cases hs.symm.trans he
      exact .inr (.inr ⟨e, rfl, hpw rfl, h⟩)
    | none =>
      cases hgt : w.growsTo m (page addr) with
      | true =>
        obtain ⟨f, hf, -, hp, -⟩ := hw.grow_entry hs hgt
        cases hf.symm.trans he
        exact .inr (.inl ⟨⟨w.nextBlock, pgOffset addr⟩, by rw [h, hp], le_rfl⟩)
      | false =>
        rw [grow_of_not hgt, hs] at he
        cases he
  · obtain ⟨f, hf, hp⟩ := hwg.cowBreak_entry m (page addr) e
    refine .inr (.inl ⟨⟨(w.grow m (page addr)).nextBlock, pgOffset addr⟩, ?_, hg.nextBlock⟩)
    rw [h, hf, Option.map_some, hp]

theorem memPtr_read_of {addr : Addr} {e : PtEntry} (he : w.memPt m (page addr) = some e) :
    w.memPtr m addr .read = (w, some (w.entryPtr e (pgOffset addr))) := by
  simp [memPtr, grow_of_isSome (Option.isSome_of_eq_some he), he]

theorem memPtr_write_of {addr : Addr} {e : PtEntry} (he : w.memPt m (page addr) = some e)
    (hwr : pWritable e.flags) :
    w.memPtr m addr .write = (w, some (w.entryPtr e (pgOffset addr))) := by
  simp only [pWritable, Bool.and_eq_true, Bool.not_eq_true'] at hwr
  simp [memPtr, grow_of_isSome (Option.isSome_of_eq_some he), he, hwr]

theorem grow_kept {q : ℕ} {e : PtEntry} (he : w.memPt m p = some e) :
    (w.grow m q).memPt m p = some e := by
  cases hn : w.memPt m q with
  | some f => rwa [grow_of_isSome (Option.isSome_of_eq_some hn)]
  | none =>
    cases hg : w.growsTo m q with
    | false => rwa [grow_of_not hg]
    | true =>
      have hne : p ≠ q := by
        rintro rfl
        rw [hn] at he
        cases he
      rw [grow_eq hn hg, memPt_ptMap_one, if_neg (fun h ↦ hne h.2)]
      exact he

/-- An access replaces at most the entry of its own page, and that only when
it gives a pointer to the replacement. -/
theorem memPtr_kept {addr : Addr} {type : Access} {e : PtEntry} (he : w.memPt m p = some e)
    (h : p ≠ page addr ∨ (w.memPtr m addr type).2 = none ∨ type = .read) :
    (w.memPtr m addr type).1.memPt m p = some e := by
  have hg : (w.grow m (page addr)).memPt m p = some e := grow_kept he
  obtain hr | ⟨f, -, -, hr⟩ | ⟨f, -, ht, -, hr⟩ := memPtr_cases w m addr type <;> rw [hr]
  · exact hg
  · exact hg
  · rcases h with h | h | h
    · rw [memPt_cowBreak, if_neg (fun h' ↦ h h'.2), hg]
    · rw [hr, memPt_cowBreak, if_pos ⟨rfl, rfl⟩] at h
      cases h
    · rw [ht] at h
      cases h

/-- A pointer an access gives is the one of the entry that it leaves. -/
theorem memPtr_entry {addr : Addr} {type : Access} {q : Ptr}
    (hq : (w.memPtr m addr type).2 = some q) :
    ∃ e, (w.memPtr m addr type).1.memPt m (page addr) = some e ∧
      (type = .write → pWritable e.flags) ∧
      q = (w.memPtr m addr type).1.entryPtr e (pgOffset addr) := by
  obtain hr | ⟨f, hf, hpw, hr⟩ | ⟨f, -, -, hwr, hr⟩ := memPtr_cases w m addr type <;> rw [hr] at hq ⊢
  · cases hq
  · cases hq
    exact ⟨f, hf, hpw, rfl⟩
  · rw [memPt_cowBreak, if_pos ⟨rfl, rfl⟩] at hq ⊢
    cases hq
    exact ⟨_, rfl, fun _ ↦ pWritable_uncow hwr, rfl⟩

/-! Changing flags. -/

/-- The host refuses the protection the new flags ask for. -/
def refused (w : World) (mprotect : Mprotect) (m : ℕ) (flags : Flags) (page : ℕ) : Bool :=
  match w.memPt m page with
  | none => false
  | some entry =>
    raisesProt entry.flags flags && decide (mprotect (w.entryPtr entry 0) (has flags pWrite) < 0)

/-- The pages up to the first refused one. -/
def rewritten (w : World) (mprotect : Mprotect) (m : ℕ) (flags : Flags) : List ℕ → List ℕ
  | [] => []
  | page :: pages =>
    page :: if w.refused mprotect m flags page then [] else w.rewritten mprotect m flags pages

theorem rewritten_subset (mprotect : Mprotect) (flags : Flags) (pages : List ℕ) :
    w.rewritten mprotect m flags pages ⊆ pages := by
  induction pages with
  | nil => exact List.Subset.refl _
  | cons p pages ih =>
    unfold rewritten
    split
    · simp
    · exact List.cons_subset_cons p ih

theorem refused_setPt_of_ne {mprotect : Mprotect} {flags : Flags} {f : PtEntry} (h : p' ≠ p) :
    (w.setPt m p (some f)).refused mprotect m flags p' = w.refused mprotect m flags p' := by
  unfold refused
  rw [memPt_setPt, if_neg (fun h' ↦ h h'.2)]
  rfl

theorem rewritten_setPt {mprotect : Mprotect} {flags : Flags} {f : PtEntry} {pages : List ℕ}
    (h : p ∉ pages) : (w.setPt m p (some f)).rewritten mprotect m flags pages =
      w.rewritten mprotect m flags pages := by
  induction pages with
  | nil => rfl
  | cons q pages ih =>
    obtain ⟨hne, hp⟩ := not_or.mp (mt List.mem_cons.mpr h)
    unfold rewritten
    rw [refused_setPt_of_ne (Ne.symm hne), ih hp]

/-- Flags are all a change of flags changes. -/
structure SameMemory (w w' : World) : Prop where
  nextMem : w'.nextMem = w.nextMem
  data : w'.data = w.data
  live : w'.live = w.live
  byte : w'.byte = w.byte
  nextBlock : w'.nextBlock = w.nextBlock
  nextData : w'.nextData = w.nextData

theorem SameMemory.trans (h : SameMemory w w₁) (h' : SameMemory w₁ w₂) : SameMemory w w₂ :=
  ⟨h'.nextMem.trans h.nextMem, h'.data.trans h.data, h'.live.trans h.live, h'.byte.trans h.byte,
    h'.nextBlock.trans h.nextBlock, h'.nextData.trans h.nextData⟩

theorem ptSetFlagsLoop_sameMemory (mprotect : Mprotect) (m : ℕ) (flags : Flags) (pages : List ℕ)
    (w : World) : SameMemory w (ptSetFlagsLoop mprotect m flags w pages).1 := by
  induction pages generalizing w with
  | nil => exact ⟨rfl, rfl, rfl, rfl, rfl, rfl⟩
  | cons p pages ih =>
    unfold ptSetFlagsLoop
    split
    · exact ⟨rfl, rfl, rfl, rfl, rfl, rfl⟩
    · rename_i e he
      have hs : SameMemory w (w.setPt m p (some { e with flags := flags })) :=
        ⟨rfl, rfl, rfl, rfl, rfl, rfl⟩
      dsimp only
      split
      · exact hs
      · exact hs.trans (ih _)

theorem memPt_ptSetFlagsLoop (mprotect : Mprotect) (m : ℕ) (flags : Flags) {pages : List ℕ}
    (hd : pages.Nodup) (hp : ∀ p ∈ pages, (w.memPt m p).isSome) (m' p' : ℕ) :
    (ptSetFlagsLoop mprotect m flags w pages).1.memPt m' p' =
      if m' = m ∧ p' ∈ w.rewritten mprotect m flags pages then
        (w.memPt m' p').map fun e ↦ { e with flags := flags }
      else w.memPt m' p' := by
  induction pages generalizing w with
  | nil => simp [ptSetFlagsLoop, rewritten]
  | cons p pages ih =>
    obtain ⟨e, he⟩ := Option.isSome_iff_exists.mp (hp p List.mem_cons_self)
    obtain ⟨hpn, hd'⟩ := List.nodup_cons.mp hd
    have hmapped (q : ℕ) (hq : q ∈ pages) :
        ((w.setPt m p (some { e with flags := flags })).memPt m q).isSome := by
      rw [memPt_setPt, if_neg (fun h : m = m ∧ q = p ↦ hpn (h.2 ▸ hq))]
      exact hp q (List.mem_cons_of_mem p hq)
    have hr : w.refused mprotect m flags p =
        decide (raisesProt e.flags flags ∧ mprotect (w.entryPtr e 0) (has flags pWrite) < 0) := by
      simp [refused, he]
    have hsub := rewritten_subset (w := w) (m := m) mprotect flags pages
    have ih := ih hd' hmapped
    rw [rewritten_setPt hpn] at ih
    unfold ptSetFlagsLoop rewritten
    simp only [he, hr, decide_eq_true_eq]
    split
    · rw [memPt_setPt]
      by_cases h : m' = m ∧ p' = p
      · obtain ⟨rfl, rfl⟩ := h
        simp [he]
      · rw [if_neg h, if_neg (fun hm ↦ h ⟨hm.1, by simpa using hm.2⟩)]
    · rw [ih, memPt_setPt]
      by_cases h : m' = m ∧ p' = p
      · obtain ⟨rfl, rfl⟩ := h
        have hpr : p' ∉ w.rewritten mprotect m' flags pages := fun hm ↦ hpn (hsub hm)
        simp [he, hpr]
      · rw [if_neg h]
        by_cases hm : m' = m
        · have hne : p' ≠ p := fun hp ↦ h ⟨hm, hp⟩
          simp [hm, hne]
        · simp [hm]

theorem ptSetFlags_sameMemory (mprotect : Mprotect) (m start pages : ℕ) (flags : Flags) :
    SameMemory w (w.ptSetFlags mprotect m start pages flags).1 := by
  unfold ptSetFlags
  split
  · exact ⟨rfl, rfl, rfl, rfl, rfl, rfl⟩
  · exact ptSetFlagsLoop_sameMemory _ _ _ _ _

/-- The entries `pt_set_flags` overwrites. -/
def setFlagsPages (w : World) (mprotect : Mprotect) (m start pages : ℕ) (flags : Flags) : List ℕ :=
  if (List.range' start pages).any (fun p ↦ (w.memPt m p).isNone) then []
  else w.rewritten mprotect m flags (List.range' start pages)

theorem memPt_ptSetFlags (mprotect : Mprotect) (m start pages : ℕ) (flags : Flags) (m' p' : ℕ) :
    (w.ptSetFlags mprotect m start pages flags).1.memPt m' p' =
      if m' = m ∧ p' ∈ w.setFlagsPages mprotect m start pages flags then
        (w.memPt m' p').map fun e ↦ { e with flags := flags }
      else w.memPt m' p' := by
  unfold ptSetFlags setFlagsPages
  split
  · simp
  · rename_i h
    refine memPt_ptSetFlagsLoop mprotect m flags List.nodup_range' (fun p hp ↦ ?_) m' p'
    by_contra hn
    exact h (List.any_eq_true.mpr ⟨p, hp, by simpa using hn⟩)

/-! What the other space reads. -/

theorem growsTo_congr (h : ∀ p, w'.memPt m p = w.memPt m p) (p : ℕ) :
    w'.growsTo m p = w.growsTo m p := by
  have hpt : w'.memPt m = w.memPt m := funext h
  simp only [growsTo, nextMapped, hpt]

/-- The blocks that were allocated keep their host mapping. -/
def KeepsBlocks (w w' : World) : Prop :=
  ∀ d x, d < w.nextData → w'.data d = some x → ∃ y, w.data d = some y ∧ y.data = x.data

theorem Frame.keepsBlocks (hf : Frame a w.nextData k w w') : KeepsBlocks w w' := hf.data

theorem KeepsBlocks.entryPtr {e : PtEntry} (h : KeepsBlocks w w') (hw : w.Wf) (hw' : w'.Wf)
    (he : w.memPt m p = some e) (he' : w'.memPt m' p' = some e) (off : ℕ) :
    w'.entryPtr e off = w.entryPtr e off := by
  obtain ⟨z, hz⟩ := hw.mapped he
  obtain ⟨x, hx⟩ := hw'.mapped he'
  obtain ⟨y, hy, hyx⟩ := h e.data x (hw.dataLt hz) hx
  simp [World.entryPtr, hx, hy, hyx]

/-- A step on another space changes no byte that a space reads. -/
theorem Frame.load (hf : Frame a w.nextData w.nextBlock w w') (hw : w.Wf) (hw' : w'.Wf)
    (hm : m ≠ a) (addr : Addr) : (w'.load m addr).2 = (w.load m addr).2 := by
  have hpt := hf.memPt hm
  cases he : w.memPt m (page addr) with
  | none =>
    rw [hw.load_unmapped he, hw'.load_unmapped ((hpt _).trans he), growsTo_congr hpt]
  | some e =>
    have he' := (hpt (page addr)).trans he
    rw [hw.load_mapped he, hw'.load_mapped he', hf.keepsBlocks.entryPtr hw hw' he he',
      hf.byte _ (hw.entryPtr_lt he _)]

end Isl.Emu.Memory.World
