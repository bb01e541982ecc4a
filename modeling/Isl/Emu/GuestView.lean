import Isl.Emu.GuestMem
import Isl.Emu.TlbPages

/-!
The guest's view of an address space: what `mem_ptr` lets it read and write,
with the pages that a stack would grow over counted as mapped. `mem_ptr` itself
never changes the view, whatever it maps or copies.
-/

namespace Isl.Emu.Memory.World

variable {w w' : World} {m m' p q : ℕ} {a addr : Addr} {e : PtEntry} {type : Access}

def permOf (flags : Flags) : Perm := if has flags pWrite then .readWrite else .readOnly

def view (w : World) (m : ℕ) : GuestMem where
  perm p :=
    match w.memPt m p with
    | some entry => permOf entry.flags
    | none => if w.growsTo m p then .readWrite else .unmapped
  byte a :=
    match w.memPt m (page a) with
    | some entry =>
      w.byte (w.entryPtr entry (pgOffset a)).block (w.entryPtr entry (pgOffset a)).off
    | none => 0

theorem view_perm_of (he : w.memPt m p = some e) : (w.view m).perm p = permOf e.flags := by
  simp [view, he]

theorem view_perm_none (he : w.memPt m p = none) :
    (w.view m).perm p = if w.growsTo m p then .readWrite else .unmapped := by
  simp [view, he]

theorem view_byte_of (he : w.memPt m (page a) = some e) : (w.view m).byte a =
    w.byte (w.entryPtr e (pgOffset a)).block (w.entryPtr e (pgOffset a)).off := by
  simp [view, he]

theorem view_byte_none (he : w.memPt m (page a) = none) : (w.view m).byte a = 0 := by
  simp [view, he]

theorem permOf_ne_unmapped (flags : Flags) : permOf flags ≠ .unmapped := by
  unfold permOf
  split <;> exact Perm.noConfusion

theorem permOf_eq_readWrite {flags : Flags} : permOf flags = .readWrite ↔ has flags pWrite := by
  unfold permOf
  split
  · rename_i h
    simp [h]
  · rename_i h
    simp [h]

/-- A byte load is a load of the view. -/
theorem Wf.load_view (hw : w.Wf) (m : ℕ) (a : Addr) : (w.load m a).2 = (w.view m).load a := by
  cases he : w.memPt m (page a) with
  | some e =>
    rw [hw.load_mapped he, GuestMem.load, view_perm_of he, if_neg (permOf_ne_unmapped _),
      view_byte_of he]
  | none =>
    rw [hw.load_unmapped he, GuestMem.load, view_perm_none he, view_byte_none he]
    cases w.growsTo m (page a) <;> rfl

/-! Growing. -/

/-- The next mapped page is part of a region that grows down. -/
theorem growsTo_iff : w.growsTo m p ↔ ∃ q e, p < q ∧ q < memPages ∧ w.memPt m q = some e ∧
    has e.flags pGrowsdown ∧ ∀ r, p < r → r < q → w.memPt m r = none := by
  have hnext (q : ℕ) : w.nextMapped m (p + 1) = some q ↔
      p < q ∧ q < memPages ∧ (w.memPt m q).isSome ∧ ∀ r, p < r → r < q → w.memPt m r = none := by
    rw [nextMapped, List.find?_range'_eq_some, List.mem_range'_1]
    simp only [Bool.not_eq_true', Option.isSome_eq_false_iff, Option.isNone_iff_eq_none]
    constructor
    · rintro ⟨hq, hin, hr⟩
      exact ⟨by omega, by omega, hq, hr⟩
    · rintro ⟨hpq, hqm, hq, hr⟩
      exact ⟨hq, by omega, hr⟩
  constructor
  · intro h
    unfold growsTo at h
    split at h
    case h_1 => cases h
    rename_i e he
    obtain ⟨q, hq, he⟩ := Option.bind_eq_some_iff.mp he
    obtain ⟨hpq, hqm, -, hr⟩ := (hnext q).mp hq
    exact ⟨q, e, hpq, hqm, he, h, hr⟩
  · rintro ⟨q, e, hpq, hqm, he, hg, hr⟩
    have hq := (hnext q).mpr ⟨hpq, hqm, Option.isSome_of_eq_some he, hr⟩
    simp only [growsTo, hq, Option.bind_some, he, hg]

/-- Pages stay mapped, and whether they grow down stays. -/
theorem growsTo_of_flags
    (h : ∀ q, (w'.memPt m q).map (fun e ↦ has e.flags pGrowsdown) =
      (w.memPt m q).map fun e ↦ has e.flags pGrowsdown) (p : ℕ) :
    w'.growsTo m p = w.growsTo m p := by
  have half {w w' : World} (h : ∀ q, (w'.memPt m q).map (fun e ↦ has e.flags pGrowsdown) =
      (w.memPt m q).map fun e ↦ has e.flags pGrowsdown) (hg : w.growsTo m p) :
      w'.growsTo m p := by
    obtain ⟨q, e, hpq, hqm, he, hd, hr⟩ := growsTo_iff.mp hg
    have hq := h q
    rw [he, Option.map_some] at hq
    obtain ⟨e', he', hd'⟩ := Option.map_eq_some_iff.mp hq
    refine growsTo_iff.mpr ⟨q, e', hpq, hqm, he', hd'.trans hd, fun r h₁ h₂ ↦ ?_⟩
    have hr' := h r
    rwa [hr r h₁ h₂, Option.map_none, Option.map_eq_none_iff] at hr'
  rw [Bool.eq_iff_iff]
  exact ⟨half fun q ↦ (h q).symm, half h⟩

/-- The page a region has grown to grows down itself. -/
theorem growsTo_grow (hn : w.memPt m p = none) (hg : w.growsTo m p)
    (hq : q ≠ p) (hp : p < memPages) : (w.grow m p).growsTo m q = w.growsTo m q := by
  have hpt (r : ℕ) : (w.grow m p).memPt m r =
      if r = p then some ⟨w.nextData, 0, pWrite ||| pGrowsdown ||| pAnon⟩ else w.memPt m r := by
    rw [grow_eq hn hg, memPt_ptMap_one]
    simp only [true_and, mmap_nextData]
    rfl
  have hpt_ne {r : ℕ} (hr : r ≠ p) : (w.grow m p).memPt m r = w.memPt m r := by
    rw [hpt, if_neg hr]
  have hpt_self : (w.grow m p).memPt m p = some ⟨w.nextData, 0, pWrite ||| pGrowsdown ||| pAnon⟩ := by
    rw [hpt, if_pos rfl]
  have hdown : has (pWrite ||| pGrowsdown ||| pAnon) pGrowsdown := by decide
  obtain ⟨top, eTop, hpTop, hTopLt, heTop, hdTop, hTop⟩ := growsTo_iff.mp hg
  rw [Bool.eq_iff_iff]
  constructor
  · intro h
    obtain ⟨s, e, hqs, hslt, he, hd, hr⟩ := growsTo_iff.mp h
    by_cases hs : s = p
    · subst hs
      refine growsTo_iff.mpr ⟨top, eTop, hqs.trans hpTop, hTopLt, heTop, hdTop, fun r h₁ h₂ ↦ ?_⟩
      rcases lt_trichotomy r s with hlt | rfl | hgt
      · rw [← hpt_ne hlt.ne, hr r h₁ hlt]
      · exact hn
      · exact hTop r hgt h₂
    · refine growsTo_iff.mpr ⟨s, e, hqs, hslt, (hpt_ne hs).symm.trans he, hd, fun r h₁ h₂ ↦ ?_⟩
      have hrp : r ≠ p := by
        rintro rfl
        have hnone := hr r h₁ h₂
        rw [hpt_self] at hnone
        cases hnone
      rw [← hpt_ne hrp, hr r h₁ h₂]
  · intro h
    obtain ⟨s, e, hqs, hslt, he, hd, hr⟩ := growsTo_iff.mp h
    by_cases hbetween : q < p ∧ p < s
    · refine growsTo_iff.mpr ⟨p, _, hbetween.1, hp, hpt_self, hdown, fun r h₁ h₂ ↦ ?_⟩
      rw [hpt_ne h₂.ne, hr r h₁ (h₂.trans hbetween.2)]
    · have hs : s ≠ p := by
        rintro rfl
        rw [hn] at he
        cases he
      refine growsTo_iff.mpr ⟨s, e, hqs, hslt, (hpt_ne hs).trans he, hd, fun r h₁ h₂ ↦ ?_⟩
      rw [hpt_ne (by omega), hr r h₁ h₂]

/-! What an access leaves of the view. -/

theorem Frame.view_byte (hf : Frame m w.nextData w.nextBlock w w') (hw : w.Wf) (hw' : w'.Wf)
    (h : w'.memPt m' (page a) = w.memPt m' (page a)) : (w'.view m').byte a = (w.view m').byte a := by
  cases he : w.memPt m' (page a) with
  | none => rw [view_byte_none he, view_byte_none (h.trans he)]
  | some e =>
    have he' := h.trans he
    rw [view_byte_of he, view_byte_of he', hf.keepsBlocks.entryPtr hw hw' he he',
      hf.byte _ (hw.entryPtr_lt he _)]

theorem Frame.view (hf : Frame m w.nextData w.nextBlock w w') (hw : w.Wf) (hw' : w'.Wf)
    (hm : m' ≠ m) : w'.view m' = w.view m' := by
  have hperm : (w'.view m').perm = (w.view m').perm := by
    funext p
    simp only [World.view, hf.memPt hm p, growsTo_congr (hf.memPt hm) p]
  have hbyte : (w'.view m').byte = (w.view m').byte := by
    funext a
    exact hf.view_byte hw hw' (hf.memPt hm _)
  exact congrArg₂ GuestMem.mk hperm hbyte

theorem Wf.view_grow (hw : w.Wf) (hp : p < memPages) (m' : ℕ) :
    (w.grow m p).view m' = w.view m' := by
  have hw' := hw.grow' m hp
  have hf : Frame m w.nextData w.nextBlock w (w.grow m p) := grow_frame le_rfl le_rfl p
  by_cases hm : m' = m
  case neg => exact hf.view hw hw' hm
  subst hm
  cases hn : w.memPt m' p with
  | some e => rw [grow_of_isSome (Option.isSome_of_eq_some hn)]
  | none =>
    cases hg : w.growsTo m' p with
    | false => rw [grow_of_not hg]
    | true =>
      obtain ⟨e, he, hpw, hptr, hzero⟩ := hw.grow_entry hn hg
      have hne {r : ℕ} (hr : r ≠ p) : (w.grow m' p).memPt m' r = w.memPt m' r := by
        rw [grow_eq hn hg, memPt_ptMap_one, if_neg fun h ↦ hr h.2]
        rfl
      have hperm : ((w.grow m' p).view m').perm = (w.view m').perm := by
        funext r
        by_cases hr : r = p
        · subst hr
          have hwrite : has e.flags pWrite := by
            simp only [pWritable, Bool.and_eq_true] at hpw
            exact hpw.1
          rw [view_perm_of he, view_perm_none hn, if_pos hg, permOf_eq_readWrite.mpr hwrite]
        · simp only [World.view, hne hr, growsTo_grow hn hg hr hp]
      have hbyte : ((w.grow m' p).view m').byte = (w.view m').byte := by
        funext a
        by_cases ha : page a = p
        · subst ha
          rw [view_byte_of he, hptr, hzero, view_byte_none hn]
        · exact hf.view_byte hw hw' (hne ha)
      exact congrArg₂ GuestMem.mk hperm hbyte

theorem has_uncow {flags bit : Flags} (h : ~~~pCow &&& bit = bit) :
    has (flags &&& ~~~pCow) bit = has flags bit := by
  rw [has, has, BitVec.and_assoc, h]

theorem Wf.view_cowBreak (hw : w.Wf) (he : w.memPt m p = some e) (m' : ℕ) :
    (w.cowBreak m p e).view m' = w.view m' := by
  have hin := hw.inRange he
  have hw' := hw.cowBreak e hin.1 hin.2
  have hf : Frame m w.nextData w.nextBlock w (w.cowBreak m p e) := cowBreak_frame le_rfl le_rfl p e
  by_cases hm : m' = m
  case neg => exact hf.view hw hw' hm
  subst hm
  have hne {r : ℕ} (hr : r ≠ p) : (w.cowBreak m' p e).memPt m' r = w.memPt m' r := by
    rw [memPt_cowBreak, if_neg fun h ↦ hr h.2]
  have hself := memPt_cowBreak w m' p e m' p
  rw [if_pos ⟨rfl, rfl⟩] at hself
  have hgrow (r : ℕ) : (w.cowBreak m' p e).growsTo m' r = w.growsTo m' r := by
    apply growsTo_of_flags
    intro q
    by_cases hq : q = p
    · subst hq
      rw [hself, he, Option.map_some, Option.map_some, has_uncow (by decide)]
    · rw [hne hq]
  have hperm : ((w.cowBreak m' p e).view m').perm = (w.view m').perm := by
    funext r
    by_cases hr : r = p
    · subst hr
      rw [view_perm_of hself, view_perm_of he, permOf, permOf, has_uncow (by decide)]
    · simp only [World.view, hne hr, hgrow]
  have hbyte : ((w.cowBreak m' p e).view m').byte = (w.view m').byte := by
    funext a
    by_cases ha : page a = p
    · subst ha
      obtain ⟨f, hfe, hptr⟩ := hw.cowBreak_entry m' (page a) e
      rw [view_byte_of hfe, view_byte_of he, hptr, cowBreak_byte hw he (pgOffset_lt a)]
    · exact hf.view_byte hw hw' (hne ha)
  exact congrArg₂ GuestMem.mk hperm hbyte

/-- `mem_ptr` changes nothing that a guest can see, of any address space. -/
theorem Wf.view_memPtr (hw : w.Wf) (m : ℕ) (addr : Addr) (type : Access) (m' : ℕ) :
    (w.memPtr m addr type).1.view m' = w.view m' := by
  have hwg := hw.grow' m (page_lt addr)
  have hg := hw.view_grow (m := m) (page_lt addr) m'
  obtain h | ⟨e, -, -, h⟩ | ⟨e, he, -, -, h⟩ := memPtr_cases w m addr type <;> rw [h]
  · exact hg
  · exact hg
  · exact (hwg.view_cowBreak he m').trans hg

/-- `mem_ptr` gives a pointer exactly where the view allows the access. -/
theorem Wf.memPtr_isSome (hw : w.Wf) (m : ℕ) (addr : Addr) (type : Access) :
    (w.memPtr m addr type).2.isSome ↔ (w.view m).perm (page addr) ≠ .unmapped ∧
      (type = .write → (w.view m).perm (page addr) = .readWrite) := by
  rw [← hw.view_grow (m := m) (page_lt addr) m]
  cases he : (w.grow m (page addr)).memPt m (page addr) with
  | none =>
    have hgrow : (w.grow m (page addr)).growsTo m (page addr) = false := by
      cases hg : w.growsTo m (page addr) with
      | false => rw [grow_of_not hg, hg]
      | true =>
        have hn : w.memPt m (page addr) = none := by
          cases hs : w.memPt m (page addr) with
          | none => rfl
          | some e => rw [grow_of_isSome (Option.isSome_of_eq_some hs), hs] at he; cases he
        obtain ⟨e, he', -⟩ := hw.grow_entry hn hg
        rw [he] at he'
        cases he'
    simp [World.memPtr, he, view_perm_none he, hgrow]
  | some e =>
    rw [view_perm_of he, permOf_eq_readWrite]
    have hne := permOf_ne_unmapped e.flags
    cases type with
    | read => simp [World.memPtr, he, hne]
    | write =>
      by_cases hwr : has e.flags pWrite
      · by_cases hcow : has e.flags pCow
        · simp [World.memPtr, he, hne, hwr, hcow, memPt_cowBreak]
        · simp [World.memPtr, he, hne, hwr, hcow]
      · simp [World.memPtr, he, hwr]

/-! Writing. -/

/-- A byte written to the memory of a page is a byte of the view. -/
theorem Wf.view_hostWrite (hw : w.Wf) (hu : w.Unaliased) (he : w.memPt m (page a) = some e)
    (v : Byte) : (w.hostWrite (w.entryPtr e (pgOffset a)) v).view m =
      { w.view m with byte := Function.update (w.view m).byte a v } := by
  refine congrArg₂ GuestMem.mk rfl ?_
  funext x
  by_cases hx : x = a
  · subst hx
    have he' : (w.hostWrite (w.entryPtr e (pgOffset x)) v).memPt m (page x) = some e := he
    rw [Function.update_self]
    refine (view_byte_of he').trans ?_
    simp [World.hostWrite, entryPtr]
  · rw [Function.update_of_ne hx]
    cases hf : w.memPt m (page x) with
    | none =>
      have hf' : (w.hostWrite (w.entryPtr e (pgOffset a)) v).memPt m (page x) = none := hf
      exact (view_byte_none hf').trans (view_byte_none hf).symm
    | some f =>
      have hf' : (w.hostWrite (w.entryPtr e (pgOffset a)) v).memPt m (page x) = some f := hf
      refine (view_byte_of hf').trans ((hostWrite_byte_of_ne ?_ v).trans (view_byte_of hf).symm)
      intro heq
      have hs := hw.samePage_of_entryPtr hf he heq
      have hpage := hu _ _ _ _ _ _ hf he hs
      have ho := congrArg Ptr.off heq
      simp only [entryPtr, hs.2] at ho
      exact hx (addr_ext hpage (by omega))

/-- A byte store is a store to the view. -/
theorem Wf.view_store (hw : w.Wf) (hu : w.Unaliased) (m : ℕ) (a : Addr) (v : Byte) :
    (w.store m a v).view m = ((w.view m).store a v).getD (w.view m) := by
  have hw' := hw.memPtr m a .write
  have hu' := hu.memPtr hw m a .write
  have hview := hw.view_memPtr m a .write m
  have hsome := hw.memPtr_isSome m a .write
  unfold World.store
  dsimp only
  cases hq : (w.memPtr m a .write).2 with
  | none =>
    rw [hq] at hsome
    have hperm : (w.view m).perm (page a) ≠ .readWrite := by
      intro hp
      have h := hsome.mpr ⟨by rw [hp]; exact Perm.noConfusion, fun _ ↦ hp⟩
      cases h
    rw [GuestMem.store, if_neg hperm]
    exact hview
  | some q =>
    rw [hq] at hsome
    have hperm := (hsome.mp rfl).2 rfl
    obtain ⟨e, he, -, rfl⟩ := memPtr_entry hq
    dsimp only
    rw [hw'.view_hostWrite hu' he, hview, GuestMem.store, if_pos hperm]
    rfl

end Isl.Emu.Memory.World
