import Isl.Emu.MemoryFrame
import Isl.Lib.Run

/-!
Isolation of the two address spaces of a fork, `copy_task` of `kernel/fork.c`
over `pt_copy_on_write`.
-/

namespace Isl.Emu.Memory.World

open Isl.Lib.Run

variable {w w' t : World} {a b m m' p p' src dst n : ℕ} {e f : PtEntry}

/-- `mem_new` and `pt_copy_on_write` of every page, as in `copy_task`. The copy
is space number `w.nextMem`. -/
def fork (w : World) (src : ℕ) : World :=
  (w.memNew.2.ptCopyOnWrite src 0 w.nextMem 0 memPages).1

/-! The entries of a copy. -/

theorem memPt_cowPage (he : w.memPt src p = some e) (m q : ℕ) :
    (cowPage src dst w p p).memPt m q =
      if (m = src ∨ m = dst) ∧ q = p then some { e with flags := cowFlags e.flags }
      else w.memPt m q := by
  rw [cowPage_eq he, memPt_setPt, dataRetain_memPt, memPt_setPt, memPt_unmapOne]
  by_cases hq : q = p
  · by_cases hd : m = dst
    · simp [hq, hd]
    · simp [hq, hd]
  · simp [hq]

theorem memPt_cowPages (hne : src ≠ dst) (hdst : ∀ q, w.memPt dst q = none) (n m q : ℕ) :
    (w.cowPages src 0 dst 0 n).memPt m q =
      if (m = src ∨ m = dst) ∧ q < n then
        (w.memPt src q).map fun e ↦ { e with flags := cowFlags e.flags }
      else w.memPt m q := by
  induction n generalizing m q with
  | zero => simp [cowPages]
  | succ n ih =>
    rw [cowPages_succ, Nat.zero_add]
    have hsrc : (w.cowPages src 0 dst 0 n).memPt src n = w.memPt src n := by simp [ih]
    have hlt : q < n + 1 ↔ q < n ∨ q = n := by omega
    cases he : w.memPt src n with
    | none =>
      rw [cowPage_none (hsrc.trans he), ih]
      by_cases hq : q = n
      · subst hq
        rcases eq_or_ne m src with rfl | hms
        · simp [he]
        · rcases eq_or_ne m dst with rfl | hmd
          · simp [he, hdst]
          · simp [hms, hmd]
      · simp [hlt, hq]
    | some e =>
      rw [memPt_cowPage (hsrc.trans he), ih]
      by_cases hq : q = n
      · subst hq
        by_cases hm : m = src ∨ m = dst
        · simp [hm, he]
        · simp [hm]
      · simp [hlt, hq]

theorem memNew_memPt (hw : w.Wf) : w.memNew.2.memPt = w.memPt := by
  funext m p
  by_cases h : m = w.nextMem
  · subst h
    rw [hw.memPt_fresh le_rfl]
    simp [memPt, World.memNew, Mem.empty]
  · simp [memPt, World.memNew, h]

/-- After a fork both sides have the parent's entries, marked copy on write. -/
theorem Wf.memPt_fork (hw : w.Wf) (hsrc : src < w.nextMem) (hm : m = src ∨ m = w.nextMem) (p : ℕ) :
    (w.fork src).memPt m p = (w.memPt src p).map fun e ↦ { e with flags := cowFlags e.flags } := by
  have hpt := memNew_memPt hw
  have hdst (q : ℕ) : w.memNew.2.memPt w.nextMem q = none := by
    rw [hpt]
    exact hw.memPt_fresh le_rfl q
  unfold fork
  rw [ptCopyOnWrite_eq, memChanged_memPt, memChanged_memPt,
    memPt_cowPages (Nat.ne_of_lt hsrc) hdst, hpt]
  by_cases hp : p < memPages
  · simp [hm, hp]
  · have hnone (m : ℕ) : w.memPt m p = none := by
      cases h : w.memPt m p with
      | none => rfl
      | some e => exact absurd (hw.inRange h).2 hp
    simp [hp, hnone]

theorem Wf.fork (hw : w.Wf) (hsrc : src < w.nextMem) : (w.fork src).Wf :=
  hw.memNew.ptCopyOnWrite (Nat.ne_of_lt hsrc) (Nat.lt_succ_self _) 0 0 memPages (by simp)

/-! Isolation. -/

/-- The entries name the same page of the same block. -/
def samePage (e f : PtEntry) : Prop := e.data = f.data ∧ e.offset = f.offset

instance (e f : PtEntry) : Decidable (samePage e f) := inferInstanceAs (Decidable (_ ∧ _))

/-- A page that both spaces map is writable in neither. -/
def Isolated (w : World) (a b : ℕ) : Prop :=
  ∀ p q e f, w.memPt a p = some e → w.memPt b q = some f → samePage e f →
    pWritable e.flags = false ∧ pWritable f.flags = false

theorem Isolated.symm (h : w.Isolated a b) : w.Isolated b a := by
  intro p q e f he hf hs
  obtain ⟨h₁, h₂⟩ := h q p f e hf he ⟨hs.1.symm, hs.2.symm⟩
  exact ⟨h₂, h₁⟩

theorem pWritable_cowFlags (flags : Flags) : pWritable (cowFlags flags) = false := by
  have hc : has (cowFlags flags) pCow := by
    unfold has cowFlags pCow pCompiled
    simp only [bne_iff_ne, ne_eq]
    intro h
    have hb := congrArg (fun x : Flags ↦ x.getLsbD 4) h
    simp at hb
  simp [pWritable, hc]

theorem Wf.fork_isolated (hw : w.Wf) (hsrc : src < w.nextMem) :
    (w.fork src).Isolated src w.nextMem := by
  intro p q e f he hf _
  rw [hw.memPt_fork hsrc (.inl rfl)] at he
  rw [hw.memPt_fork hsrc (.inr rfl)] at hf
  obtain ⟨e', -, rfl⟩ := Option.map_eq_some_iff.mp he
  obtain ⟨f', -, rfl⟩ := Option.map_eq_some_iff.mp hf
  exact ⟨pWritable_cowFlags _, pWritable_cowFlags _⟩

/-- New entries of one space are about blocks the other does not have. -/
theorem Isolated.frame (h : w.Isolated a b) (hw : w.Wf) (hab : a ≠ b)
    (hf : Frame a w.nextData n w w') : w'.Isolated a b := by
  intro p q e f he hb hs
  rw [hf.memPt hab.symm] at hb
  rcases hf.own p e he with he | he
  · exact h p q e f he hb hs
  · obtain ⟨x, hx⟩ := hw.mapped hb
    have hlt := hw.dataLt hx
    have hd := hs.1
    omega

/-- The change of flags makes a page writable that the other space maps too. -/
def exposes (w : World) (mprotect : Mprotect) (m other start pages : ℕ) (flags : Flags) : Prop :=
  has flags pWrite ∧ ∃ p ∈ w.setFlagsPages mprotect m start pages flags, ∃ q < memPages,
    ∃ e ∈ w.memPt m p, ∃ f ∈ w.memPt other q, samePage e f

theorem Isolated.setFlags {mprotect : Mprotect} {start pages : ℕ} {flags : Flags}
    (h : w.Isolated a b) (hw : w.Wf) (hab : a ≠ b)
    (hx : ¬w.exposes mprotect a b start pages flags) :
    (w.ptSetFlags mprotect a start pages flags).1.Isolated a b := by
  intro p q e f he hf hs
  rw [memPt_ptSetFlags, if_neg (fun h ↦ hab h.1.symm)] at hf
  rw [memPt_ptSetFlags] at he
  split at he
  · rename_i hp
    obtain ⟨e', he', rfl⟩ := Option.map_eq_some_iff.mp he
    obtain ⟨-, hfw⟩ := h p q e' f he' hf hs
    refine ⟨?_, hfw⟩
    by_contra hwr
    have hwrite : has flags pWrite := by
      simp only [pWritable, Bool.not_eq_false, Bool.and_eq_true] at hwr
      exact hwr.1
    exact hx ⟨hwrite, p, hp.2, q, (hw.inRange hf).2, e', he', f, hf, hs⟩
  · exact h p q e f he hf hs

theorem entryPtr_congr (h : w'.data = w.data) (e : PtEntry) (off : ℕ) :
    w'.entryPtr e off = w.entryPtr e off := by
  simp only [entryPtr, h]

theorem pgOffset_lt (addr : Addr) : pgOffset addr < pageSize := Nat.mod_lt _ (by decide)

/-- Two pointers into mapped pages coincide only when the pages do. -/
theorem Wf.samePage_of_entryPtr (hw : w.Wf) (he : w.memPt m p = some e) (hf : w.memPt m' p' = some f)
    {addr addr' : Addr} (h : w.entryPtr e (pgOffset addr) = w.entryPtr f (pgOffset addr')) :
    samePage e f := by
  obtain ⟨x, hx⟩ := hw.mapped he
  obtain ⟨y, hy⟩ := hw.mapped hf
  obtain ⟨i, hi⟩ := hw.aligned he
  obtain ⟨j, hj⟩ := hw.aligned hf
  simp only [World.entryPtr, hx, hy, Option.map_some, Option.getD_some, Ptr.mk.injEq] at h
  refine ⟨hw.blockInj hx hy h.1, ?_⟩
  have hlt := pgOffset_lt addr
  have hlt' := pgOffset_lt addr'
  have ho := h.2
  unfold pageSize at *
  omega

theorem hostWrite_byte_of_ne {q r : Ptr} (h : r ≠ q) (v : Byte) :
    (w.hostWrite q v).byte r.block r.off = w.byte r.block r.off := by
  unfold hostWrite
  by_cases hb : r.block = q.block
  · have ho : r.off ≠ q.off := fun ho ↦ h (by cases r; cases q; simp_all)
    simp [hb, ho]
  · simp [hb]

theorem Wf.load_hostWrite (hw : w.Wf) {q : Ptr} (v : Byte) {addr : Addr}
    (hq : ∀ e, w.memPt m (page addr) = some e → w.entryPtr e (pgOffset addr) ≠ q) :
    ((w.hostWrite q v).load m addr).2 = (w.load m addr).2 := by
  have hw' := hw.hostWrite q v
  cases he : w.memPt m (page addr) with
  | none => rw [hw.load_unmapped he, hw'.load_unmapped he]; rfl
  | some e =>
    rw [hw.load_mapped he, hw'.load_mapped he]
    exact congrArg some (hostWrite_byte_of_ne (hq e he) v)

/-- On isolated spaces a store through one changes no byte the other reads. -/
theorem Isolated.load_store (h : w.Isolated a b) (hw : w.Wf) (hab : a ≠ b) (addr addr' : Addr)
    (v : Byte) : ((w.store a addr v).load b addr').2 = (w.load b addr').2 := by
  have hw' := hw.memPtr a addr .write
  have hf : Frame a w.nextData w.nextBlock w (w.memPtr a addr .write).1 := memPtr_frame addr .write
  have hload := hf.load hw hw' hab.symm addr'
  unfold World.store
  rcases hw.memPtr_write a addr with hn | ⟨q, hq, hfresh⟩ | ⟨e, he, hwr, hp⟩
  · simpa only [hn] using hload
  · simp only [hq]
    rw [hw'.load_hostWrite v, hload]
    rintro f hb rfl
    rw [hf.memPt hab.symm] at hb
    rw [hf.keepsBlocks.entryPtr hw hw' hb (by rw [hf.memPt hab.symm, hb])] at hfresh
    exact absurd (hw.entryPtr_lt hb _) (Nat.not_lt.mpr hfresh)
  · simp only [hp]
    refine hw.load_hostWrite v (fun f hb heq ↦ ?_)
    obtain ⟨hc, -⟩ := h _ _ e f he hb (hw.samePage_of_entryPtr he hb heq.symm)
    rw [hwr] at hc
    cases hc

/-- A writable page that both spaces map is one memory. -/
theorem Wf.load_store_shared (hw : w.Wf) {addr addr' : Addr} (he : w.memPt a (page addr) = some e)
    (hf : w.memPt b (page addr') = some f) (hs : samePage e f) (ho : pgOffset addr = pgOffset addr')
    (hwr : pWritable e.flags) (v : Byte) : ((w.store a addr v).load b addr').2 = some v := by
  have hp := memPtr_write_of he hwr
  have hq : w.entryPtr f (pgOffset addr') = w.entryPtr e (pgOffset addr) := by
    simp only [World.entryPtr, hs.1, hs.2, ho]
  unfold World.store
  simp only [hp]
  have hq' : (w.hostWrite (w.entryPtr e (pgOffset addr)) v).entryPtr f (pgOffset addr') =
      w.entryPtr e (pgOffset addr) := (entryPtr_congr rfl _ _).trans hq
  rw [(hw.hostWrite _ v).load_mapped hf, hq']
  simp [World.hostWrite]

def pageAddr (p : ℕ) : Addr := BitVec.ofNat 32 (p * pageSize)

theorem pageAddr_toNat (hp : p < memPages) : (pageAddr p).toNat = p * pageSize := by
  have hm : memPages = 1048576 := rfl
  rw [pageAddr, BitVec.toNat_ofNat, Nat.mod_eq_of_lt]
  unfold pageSize
  omega

theorem page_pageAddr (hp : p < memPages) : page (pageAddr p) = p := by
  rw [page, pageAddr_toNat hp]
  exact Nat.mul_div_cancel p (by decide)

theorem pgOffset_pageAddr (hp : p < memPages) : pgOffset (pageAddr p) = 0 := by
  rw [pgOffset, pageAddr_toNat hp]
  exact Nat.mul_mod_left p pageSize

theorem pWritable_of_protections {flags : Flags} (hwr : has flags pWrite)
    (h : flags &&& ~~~(pRead ||| pWrite ||| pExec) = 0) : pWritable flags := by
  have hc : has flags pCow = false := by
    have hb : pCow = pCow &&& ~~~(pRead ||| pWrite ||| pExec) := by decide
    have h0 : flags &&& pCow = 0 := by
      rw [hb, BitVec.and_comm pCow, ← BitVec.and_assoc, h]
      rfl
    simp [has, h0]
  simp [pWritable, hwr, hc]

/-- A change of flags that exposes a page makes it shared memory: a store
through one side is what the other side reads. -/
theorem Wf.exposes_store {mprotect : Mprotect} {start pages : ℕ} {flags : Flags} (hw : w.Wf)
    (hab : a ≠ b) (hflags : flags &&& ~~~(pRead ||| pWrite ||| pExec) = 0)
    (hx : w.exposes mprotect a b start pages flags) :
    ∃ addr addr', ∀ v,
      (((w.ptSetFlags mprotect a start pages flags).1.store a addr v).load b addr').2 = some v := by
  obtain ⟨hwr, p, hp, q, hq, e, he, f, hf, hs⟩ := hx
  have hw' := hw.ptSetFlags mprotect a start pages flags
  have hpm := (hw.inRange he).2
  have he' : (w.ptSetFlags mprotect a start pages flags).1.memPt a p =
      some { e with flags := flags } := by
    rw [memPt_ptSetFlags, if_pos ⟨rfl, hp⟩, he]
    rfl
  have hf' : (w.ptSetFlags mprotect a start pages flags).1.memPt b q = some f := by
    rw [memPt_ptSetFlags, if_neg (fun h ↦ hab h.1.symm), hf]
  refine ⟨pageAddr p, pageAddr q, fun v ↦ hw'.load_store_shared (e := { e with flags := flags })
    (f := f) ?_ ?_ hs ?_ (pWritable_of_protections hwr hflags) v⟩
  · rw [page_pageAddr hpm, he']
  · rw [page_pageAddr hq, hf']
  · rw [pgOffset_pageAddr hpm, pgOffset_pageAddr hq]

/-! A parent with one page of its own. -/

theorem cowPage_byte (sp dp : ℕ) : (cowPage src dst w sp dp).byte = w.byte := by
  cases he : w.memPt src sp with
  | none => rw [cowPage_none he]
  | some e =>
    rw [cowPage_eq he]
    funext i
    have h : Frame dst 0 (i + 1) w (w.unmapOne dst dp) := unmapOne_frame dp
    exact h.byte i (Nat.lt_succ_self i)

theorem fork_byte (w : World) (src : ℕ) : (w.fork src).byte = w.byte := by
  have h (n : ℕ) : (w.memNew.2.cowPages src 0 w.nextMem 0 n).byte = w.byte := by
    induction n with
    | zero => rfl
    | succ n ih => rw [cowPages_succ, cowPage_byte, ih]
  unfold fork
  rw [ptCopyOnWrite_eq, memChanged_byte, memChanged_byte]
  exact h memPages

@[simp] theorem setPt_refcount (o : Option PtEntry) (m' : ℕ) :
    ((w.setPt m p o).mem m').refcount = (w.mem m').refcount := by
  by_cases h : m' = m
  · subst h; simp [setPt]
  · simp [setPt, h]

@[simp] theorem memChanged_refcount (m' : ℕ) :
    ((w.memChanged m).mem m').refcount = (w.mem m').refcount := by
  by_cases h : m' = m
  · subst h; simp [memChanged]
  · simp [memChanged, h]

theorem unmapOne_refcount (m' : ℕ) :
    ((w.unmapOne m p).mem m').refcount = (w.mem m').refcount := by
  rw [unmapOne, memChanged_refcount, ptUnmapPage]
  split
  · rfl
  · rw [dataRelease_mem, memPtDel, setPt_refcount]

theorem cowPage_refcount (sp dp m' : ℕ) :
    ((cowPage src dst w sp dp).mem m').refcount = (w.mem m').refcount := by
  cases he : w.memPt src sp with
  | none => rw [cowPage_none he]
  | some e => rw [cowPage_eq he, setPt_refcount, dataRetain_mem, setPt_refcount, unmapOne_refcount]

theorem fork_inUse (w : World) (src : ℕ) : (w.fork src).inUse w.nextMem := by
  have h (n : ℕ) : ((w.memNew.2.cowPages src 0 w.nextMem 0 n).mem w.nextMem).refcount = 1 := by
    induction n with
    | zero => simp [cowPages, World.memNew, Mem.empty]
    | succ n ih => rw [cowPages_succ, cowPage_refcount, ih]
  refine ⟨?_, ?_⟩
  · unfold fork
    rw [ptCopyOnWrite_eq, memChanged_nextMem, memChanged_nextMem, cowPages_nextMem]
    exact Nat.lt_succ_self _
  · unfold fork
    rw [ptCopyOnWrite_eq, memChanged_refcount, memChanged_refcount, h]
    exact Nat.one_pos

/-- An `mprotect` of one page on the child's side, which the host accepts. -/
theorem Wf.fork_mprotect (hw : w.Wf) (hsrc : src < w.nextMem) (he : w.memPt src p = some e)
    (flags : Flags) :
    ∃ t, (w.fork src).step (.setFlags (fun _ _ ↦ 0) w.nextMem p 1 flags) = some t ∧ t.Wf ∧
      t.byte = w.byte ∧ t.memPt w.nextMem p = some { e with flags := flags } ∧
      t.memPt src p = some { e with flags := cowFlags e.flags } := by
  have hfork {m : ℕ} (hm : m = src ∨ m = w.nextMem) :
      (w.fork src).memPt m p = some { e with flags := cowFlags e.flags } := by
    rw [hw.memPt_fork hsrc hm, he]
    rfl
  have hpages : (w.fork src).setFlagsPages (fun _ _ ↦ 0) w.nextMem p 1 flags = [p] := by
    simp [setFlagsPages, List.range'_one, hfork, rewritten]
  have hd : (w.fork src).Defined (.setFlags (fun _ _ ↦ 0) w.nextMem p 1 flags) :=
    ⟨fork_inUse w src, .inl (hw.inRange he).2⟩
  refine ⟨_, if_pos hd, (hw.fork hsrc).ptSetFlags _ _ _ _ _, ?_, ?_, ?_⟩
  · exact (ptSetFlags_sameMemory _ _ _ _ _).byte.trans (fork_byte w src)
  · refine (memPt_ptSetFlags _ _ _ _ _ _ _).trans ?_
    simp [hpages, hfork]
  · refine (memPt_ptSetFlags _ _ _ _ _ _ _).trans ?_
    simp [hfork, Nat.ne_of_lt hsrc]

def onePage : World := (init.memNew.2.ptMapNothing 0 16 1 (pRead ||| pWrite)).1

theorem onePage_reaches : Reaches step (fun _ _ ↦ True) init onePage := by
  refine (Reaches.start.next (a := .new) trivial rfl).next
    (a := .mapNothing 0 16 1 (pRead ||| pWrite)) trivial ?_
  rfl

theorem onePage_memPt : onePage.memPt 0 16 = some ⟨0, 0, pRead ||| pWrite ||| pAnon⟩ := by
  decide

theorem onePage_byte : onePage.byte = fun _ _ ↦ 0 := by
  funext b i
  by_cases h : b = 0 <;> simp [onePage, ptMapNothing, ptMapFresh, mmap, ptMap_one_byte, h, init,
    World.memNew]

/-! Runs after a fork. -/

/-- The calls made on either side, with the protections `sys_mprotect` takes. -/
def SideOp (src dst : ℕ) : Op → Prop
  | .mapNothing m _ _ _ | .map m _ _ _ _ | .unmap m _ _ _ | .load m _ | .store m _ _ =>
    m = src ∨ m = dst
  | .setFlags _ m _ _ flags =>
    (m = src ∨ m = dst) ∧ flags &&& ~~~(pRead ||| pWrite ||| pExec) = 0
  | _ => False

/-- No change of flags makes a page writable that the other side maps too. -/
def Unexposing (src dst : ℕ) (w : World) : Op → Prop
  | .setFlags mprotect m start pages flags =>
    ¬w.exposes mprotect m (if m = src then dst else src) start pages flags
  | _ => True

/-- One call on one side keeps the sides isolated. -/
theorem Isolated.apply {op : Op} (h : w.Isolated a b) (hw : w.Wf) (hab : a ≠ b)
    (hop : SideOp a a op) (hk : Unexposing a b w op) : (w.apply op).Isolated a b := by
  have hfr (h' : Frame a w.nextData 0 w (w.apply op)) : (w.apply op).Isolated a b :=
    h.frame hw hab h'
  cases op with
  | mapNothing m start pages flags =>
    obtain rfl : m = a := or_self_iff.mp hop
    exact hfr (ptMapNothing_frame le_rfl (Nat.zero_le _) start pages flags)
  | map m start pages contents flags =>
    obtain rfl : m = a := or_self_iff.mp hop
    exact hfr (ptMapFresh_frame le_rfl (Nat.zero_le _) start pages contents flags)
  | unmap m start pages force =>
    obtain rfl : m = a := or_self_iff.mp hop
    exact hfr (ptUnmap_frame start pages force)
  | setFlags mprotect m start pages flags =>
    obtain rfl : m = a := or_self_iff.mp hop.1
    refine h.setFlags hw hab ?_
    simpa only [Unexposing, if_true] using hk
  | load m addr =>
    obtain rfl : m = a := or_self_iff.mp hop
    exact h.frame hw hab (memPtr_frame addr .read)
  | store m addr v =>
    obtain rfl : m = a := or_self_iff.mp hop
    exact h.frame hw hab (store_frame addr v)
  | new | retain | release | copyOnWrite => exact hop.elim

theorem SideOp.side {op : Op} (h : SideOp src dst op) : SideOp src src op ∨ SideOp dst dst op := by
  cases op with
  | setFlags mprotect m start pages flags =>
    rcases h.1 with rfl | rfl
    · exact .inl ⟨.inl rfl, h.2⟩
    · exact .inr ⟨.inl rfl, h.2⟩
  | mapNothing | map | unmap | load | store =>
    rcases h with rfl | rfl
    · exact .inl (.inl rfl)
    · exact .inr (.inl rfl)
  | new | retain | release | copyOnWrite => exact h.elim

theorem Unexposing.symm {op : Op} (h : Unexposing src dst w op) (hne : src ≠ dst)
    (hop : SideOp dst dst op) : Unexposing dst src w op := by
  cases op with
  | setFlags mprotect m start pages flags =>
    obtain rfl : m = dst := or_self_iff.mp hop.1
    simpa [Unexposing, hne.symm] using h
  | _ => trivial

/-- After a fork, and as long as no change of flags exposes a shared page, a
store through one side changes no byte that the other side reads. -/
theorem fork_load_store {addr addr' : Addr} {v : Byte}
    (hw : Reaches step (fun _ _ ↦ True) init w) (hsrc : w.inUse src)
    (ht : Reaches step (fun t op ↦ SideOp src w.nextMem op ∧ Unexposing src w.nextMem t op)
      (w.fork src) t)
    (hab : (a, b) = (src, w.nextMem) ∨ (a, b) = (w.nextMem, src)) :
    ((t.store a addr v).load b addr').2 = (t.load b addr').2 := by
  have hwf := wf_of_reaches hw
  have hne : src ≠ w.nextMem := Nat.ne_of_lt hsrc.1
  have hinv : t.Wf ∧ t.Isolated src w.nextMem := by
    refine ht.invariant (P := fun t ↦ t.Wf ∧ t.Isolated src w.nextMem)
      ⟨hwf.fork hsrc.1, hwf.fork_isolated hsrc.1⟩ (fun t u op ⟨ht, hi⟩ ⟨hop, hk⟩ hs ↦ ?_)
    refine ⟨ht.step hs, ?_⟩
    obtain rfl : t.apply op = u := by
      unfold step at hs
      split at hs <;> cases hs
      rfl
    rcases hop.side with hop | hop
    · exact hi.apply ht hne hop hk
    · exact (hi.symm.apply ht hne.symm hop (hk.symm hne hop)).symm
  obtain ⟨htw, hi⟩ := hinv
  rcases hab with hab | hab <;> cases hab
  · exact hi.load_store htw hne addr addr' v
  · exact hi.symm.load_store htw hne.symm addr addr' v

/-- Write protecting the page in the child exposes nothing. -/
theorem fork_load_store_onePage :
    ∃ t, (onePage.fork 0).step (.setFlags (fun _ _ ↦ 0) 1 16 1 pRead) = some t ∧
      ((t.store 0 0x10000#32 1#8).load 1 0x10000#32).2 = (t.load 1 0x10000#32).2 := by
  have hn : onePage.nextMem = 1 := rfl
  have hw := wf_of_reaches onePage_reaches
  have hstep := hw.fork_mprotect (hn ▸ Nat.one_pos) onePage_memPt pRead
  rw [hn] at hstep
  obtain ⟨t, ht, -⟩ := hstep
  have hsrc : onePage.inUse 0 := by decide
  refine ⟨t, ht, fork_load_store (a := 0) (b := 1) onePage_reaches hsrc ?_ (.inl rfl)⟩
  refine Reaches.start.next (a := .setFlags (fun _ _ ↦ 0) 1 16 1 pRead) ⟨⟨.inr rfl, by decide⟩, ?_⟩ ht
  rintro ⟨hwr, -⟩
  exact absurd hwr (by decide)

/-- `mprotect` drops the copy-on-write mark, and the child then writes into
its parent's memory. -/
theorem fork_mprotect_shares :
    Reaches step (fun _ _ ↦ True) init onePage ∧ onePage.inUse 0 ∧ onePage.nextMem = 1 ∧
    ∃ t, (onePage.fork 0).step (.setFlags (fun _ _ ↦ 0) 1 16 1 (pRead ||| pWrite)) = some t ∧
      Reaches step (fun _ ↦ SideOp 0 1) (onePage.fork 0) t ∧
      (t.load 0 0x10000#32).2 = some 0 ∧
      ((t.store 1 0x10000#32 1#8).load 0 0x10000#32).2 = some 1#8 := by
  have hw := wf_of_reaches onePage_reaches
  have hn : onePage.nextMem = 1 := rfl
  have hstep := hw.fork_mprotect (hn ▸ Nat.one_pos) onePage_memPt (pRead ||| pWrite)
  rw [hn] at hstep
  obtain ⟨t, ht, htw, hbyte, h1, h0⟩ := hstep
  have hp : page 0x10000#32 = 16 := by decide
  rw [← hp] at h0 h1
  refine ⟨onePage_reaches, by decide, rfl, t, ht, ?_, ?_, ?_⟩
  · exact Reaches.start.next (a := .setFlags (fun _ _ ↦ 0) 1 16 1 (pRead ||| pWrite))
      ⟨.inr rfl, by decide⟩ ht
  · rw [htw.load_mapped h0, hbyte, onePage_byte]
  · exact htw.load_store_shared h1 h0 ⟨rfl, rfl⟩ rfl (by decide) 1#8

end Isl.Emu.Memory.World
