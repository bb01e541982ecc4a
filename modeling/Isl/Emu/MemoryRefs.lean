import Isl.Emu.CopyOnWrite
import Mathlib.Data.Set.Card

/-!
The lives of blocks: `pt_map` makes one with at least one entry, and the host
mapping goes with the last entry.
-/

namespace Isl.Emu.Memory.World

open Isl.Lib.RefCount Isl.Lib.Run

variable {w w' w₁ w₂ : World} {m m' p p' d n k : ℕ}

/-- What happens to the blocks: a block loses its host mapping when it is freed,
a new one has an entry, and no number is used twice. -/
structure Counts (w w' : World) : Prop where
  nextBlock : w.nextBlock ≤ w'.nextBlock
  nextData : w.nextData ≤ w'.nextData
  dead : ∀ b, b < w.nextBlock → w.live b = false → w'.live b = false
  data : ∀ d y, w'.data d = some y →
    (∃ x, w.data d = some x ∧ y.data = x.data ∧ y.size = x.size ∧
      (0 < x.refcount → 0 < y.refcount)) ∨
    (w.nextData ≤ d ∧ 0 < y.size ∧ 0 < y.refcount)
  gone : ∀ d x, w.data d = some x → d < w.nextData → 0 < x.size → x.data < w.nextBlock →
    w'.data d = none → w'.live x.data = false

theorem Counts.of_eq (hd : w'.data = w.data) (hl : w'.live = w.live)
    (hnd : w'.nextData = w.nextData) (hnb : w'.nextBlock = w.nextBlock) : Counts w w' where
  nextBlock := hnb.ge
  nextData := hnd.ge
  dead b _ h := by rwa [hl]
  data d y hy := by
    rw [hd] at hy
    exact .inl ⟨y, hy, rfl, rfl, id⟩
  gone d x hx _ _ _ hn := by
    rw [hd, hx] at hn
    cases hn

theorem Counts.refl (w : World) : Counts w w := .of_eq rfl rfl rfl rfl

theorem Counts.trans (h : Counts w w₁) (h' : Counts w₁ w₂) : Counts w w₂ where
  nextBlock := h.nextBlock.trans h'.nextBlock
  nextData := h.nextData.trans h'.nextData
  dead b hb hl := h'.dead b (hb.trans_le h.nextBlock) (h.dead b hb hl)
  data d z hz := by
    obtain ⟨y, hy, hb, hs, hr⟩ | ⟨hd, hs, hr⟩ := h'.data d z hz
    · obtain ⟨x, hx, hb', hs', hr'⟩ | ⟨hd, hs', hr'⟩ := h.data d y hy
      · exact .inl ⟨x, hx, hb.trans hb', hs.trans hs', fun h ↦ hr (hr' h)⟩
      · exact .inr ⟨hd, hs ▸ hs', hr hr'⟩
    · exact .inr ⟨h.nextData.trans hd, hs, hr⟩
  gone d x hx hd hs hb hn := by
    cases hy : w₁.data d with
    | none => exact h'.dead _ (hb.trans_le h.nextBlock) (h.gone d x hx hd hs hb hy)
    | some y =>
      obtain ⟨x', hx', hb', hs', -⟩ | ⟨hd', -⟩ := h.data d y hy
      · cases hx.symm.trans hx'
        have hlive := h'.gone d y hy (hd.trans_le h.nextData) (hs' ▸ hs)
          (hb' ▸ hb.trans_le h.nextBlock) hn
        rwa [hb'] at hlive
      · exact absurd hd (Nat.not_lt.mpr hd')

theorem foldl_counts {α : Type*} {f : World → α → World} (hf : ∀ w x, Counts w (f w x))
    (xs : List α) (w : World) : Counts w (xs.foldl f w) := by
  induction xs generalizing w with
  | nil => exact .refl w
  | cons x xs ih => exact (hf w x).trans (ih (f w x))

theorem setPt_counts (e : Option PtEntry) : Counts w (w.setPt m p e) := .of_eq rfl rfl rfl rfl

theorem memChanged_counts : Counts w (w.memChanged m) := .of_eq rfl rfl rfl rfl

theorem dataRetain_counts (d : ℕ) : Counts w (w.dataRetain d) where
  nextBlock := le_rfl
  nextData := le_rfl
  dead _ _ h := h
  data d' y hy := by
    by_cases h : d' = d
    · subst h
      simp only [dataRetain, Function.update_self] at hy
      obtain ⟨x, hx, rfl⟩ := Option.map_eq_some_iff.mp hy
      exact .inl ⟨x, hx, rfl, rfl, fun _ ↦ Nat.succ_pos _⟩
    · simp only [dataRetain, Function.update_of_ne h] at hy
      exact .inl ⟨y, hy, rfl, rfl, id⟩
  gone d' x hx _ _ _ hn := by
    by_cases h : d' = d
    · subst h
      simp [dataRetain, hx] at hn
    · simp [dataRetain, h, hx] at hn

theorem munmap_live_self {b s : ℕ} (hs : 0 < s) : (w.munmap b s).live b = false := by
  rw [munmap, if_neg hs.ne']
  exact Function.update_self _ _ _

theorem munmap_dead {b b' s : ℕ} (h : w.live b' = false) : (w.munmap b s).live b' = false := by
  unfold munmap
  split
  · exact h
  · by_cases hb : b' = b
    · subst hb
      exact Function.update_self _ _ _
    · exact (Function.update_of_ne hb _ _).trans h

theorem dataRelease_counts (d : ℕ) : Counts w (w.dataRelease d) := by
  cases hx : w.data d with
  | none =>
    rw [dataRelease, hx]
    exact .refl w
  | some x =>
    by_cases h1 : x.refcount = 1
    · have heq : w.dataRelease d =
          { w.munmap x.data x.size with data := Function.update w.data d none } := by
        simp [dataRelease, hx, h1]
      rw [heq]
      refine ⟨(munmap_nextBlock _ _).ge, (munmap_nextData _ _).ge, fun b _ hb ↦ munmap_dead hb,
        fun d' y hy ↦ ?_, fun d' x' hx' _ hs _ hn ↦ ?_⟩
      · by_cases h : d' = d
        · subst h
          cases (Function.update_self _ _ _).symm.trans hy
        · exact .inl ⟨y, (Function.update_of_ne h _ _).symm.trans hy, rfl, rfl, id⟩
      · by_cases h : d' = d
        · subst h
          cases hx.symm.trans hx'
          exact munmap_live_self hs
        · cases hx'.symm.trans ((Function.update_of_ne h _ _).symm.trans hn)
    · have heq : w.dataRelease d = { w with
          data := Function.update w.data d (some { x with refcount := x.refcount - 1 }) } := by
        simp [dataRelease, hx, h1]
      rw [heq]
      refine ⟨le_rfl, le_rfl, fun b _ hb ↦ hb, fun d' y hy ↦ ?_, fun d' x' hx' _ _ _ hn ↦ ?_⟩
      · by_cases h : d' = d
        · subst h
          cases (Function.update_self _ _ _).symm.trans hy
          refine .inl ⟨x, hx, rfl, rfl, fun hpos ↦ ?_⟩
          dsimp only
          omega
        · exact .inl ⟨y, (Function.update_of_ne h _ _).symm.trans hy, rfl, rfl, id⟩
      · by_cases h : d' = d
        · subst h
          cases (Function.update_self _ _ _).symm.trans hn
        · cases hx'.symm.trans ((Function.update_of_ne h _ _).symm.trans hn)

theorem mmap_counts (size : ℕ) (c : ℤ → Byte) : Counts w (w.mmap size c).2 := by
  unfold mmap
  split
  · exact .refl w
  · refine ⟨Nat.le_succ _, le_rfl, fun b hb hl ↦ ?_, fun d y hy ↦ .inl ⟨y, hy, rfl, rfl, id⟩,
      fun d x hx _ _ _ hn ↦ ?_⟩
    · rwa [← Function.update_of_ne (Nat.ne_of_lt hb) true w.live] at hl
    · cases hx.symm.trans hn

theorem mmap_eq {size : ℕ} {c : ℤ → Byte} (h : size ≠ 0) :
    w.mmap size c = (some w.nextBlock, { w with
      nextBlock := w.nextBlock + 1
      live := Function.update w.live w.nextBlock true
      byte := Function.update w.byte w.nextBlock c }) := if_neg h

theorem ptUnmapPage_counts (m p : ℕ) : Counts w (w.ptUnmapPage m p) := by
  unfold ptUnmapPage
  split
  · exact .refl w
  · exact (setPt_counts none).trans (dataRelease_counts _)

theorem unmapOne_counts (m p : ℕ) : Counts w (w.unmapOne m p) :=
  (ptUnmapPage_counts m p).trans memChanged_counts

theorem ptUnmap_counts (m start pages : ℕ) (force : Bool) :
    Counts w (w.ptUnmap m start pages force).1 := by
  unfold ptUnmap
  split
  · exact .refl w
  · exact (foldl_counts (fun _ p ↦ ptUnmapPage_counts m p) _ w).trans memChanged_counts

theorem evict_counts (m p : ℕ) : Counts w (w.evict m p) := by
  unfold evict
  split
  · exact unmapOne_counts m p
  · exact .refl w

theorem ptMapPage_counts (m d start : ℕ) (flags : Flags) (p : ℕ) :
    Counts w (ptMapPage m d start flags w p) := by
  rw [ptMapPage_eq]
  exact ((evict_counts m p).trans (dataRetain_counts d)).trans (setPt_counts _)

/-- The page table that the loop of `pt_map` makes. -/
theorem memPt_foldl_ptMapPage (m d start from_ n : ℕ) (flags : Flags) (w : World) (m' p' : ℕ) :
    ((List.range' from_ n).foldl (ptMapPage m d start flags) w).memPt m' p' =
      if m' = m ∧ from_ ≤ p' ∧ p' < from_ + n then some ⟨d, (p' - start) * pageSize, flags⟩
      else w.memPt m' p' := by
  induction n generalizing w from_ with
  | zero =>
    rw [if_neg (by omega)]
    rfl
  | succ n ih =>
    rw [List.range'_succ, List.foldl_cons, ih, ptMapPage_eq, memPt_setPt, dataRetain_memPt,
      memPt_evict]
    have hiff : m' = m ∧ from_ + 1 ≤ p' ∧ p' < from_ + 1 + n ↔
        (m' = m ∧ from_ ≤ p' ∧ p' < from_ + (n + 1)) ∧ p' ≠ from_ := by
      omega
    by_cases hp : p' = from_
    · subst hp
      by_cases hm : m' = m <;> simp [hm]
    · have hne : ¬(m' = m ∧ p' = from_) := fun h ↦ hp h.2
      rw [if_neg hne, if_neg hne]
      exact if_congr (hiff.trans (and_iff_left hp)) rfl rfl

theorem memPt_ptMap (w : World) (m start pages b : ℕ) (flags : Flags) (m' p' : ℕ) :
    (w.ptMap m start pages (some b) flags).1.memPt m' p' =
      if m' = m ∧ start ≤ p' ∧ p' < start + pages then
        some ⟨w.nextData, (p' - start) * pageSize, flags⟩
      else w.memPt m' p' := by
  rw [ptMap, memPt_foldl_ptMapPage, dataNew_memPt]

theorem ptMap_counts {start pages b : ℕ} {flags : Flags} (hw : w.Wf) (hm : m < w.nextMem)
    (hn : start + pages ≤ memPages) (hpages : 0 < pages) (hsize : 0 < pages * pageSize % 2 ^ 32)
    (hb : b < w.nextBlock) (hl : w.live b) (hfree : ∀ d x, w.data d = some x → x.data ≠ b) :
    Counts w (w.ptMap m start pages (some b) flags).1 := by
  have hw' := hw.ptMap m start pages flags hm hn hb hl hfree
  have hfold : Counts (w.dataNew b (pages * pageSize % 2 ^ 32))
      (w.ptMap m start pages (some b) flags).1 :=
    foldl_counts (fun _ p ↦ ptMapPage_counts m _ start flags p) _ _
  have hnew {d : ℕ} (hd : d ≠ w.nextData) :
      (w.dataNew b (pages * pageSize % 2 ^ 32)).data d = w.data d := Function.update_of_ne hd _ _
  have hself : (w.dataNew b (pages * pageSize % 2 ^ 32)).data w.nextData =
      some ⟨b, pages * pageSize % 2 ^ 32, 0⟩ := Function.update_self _ _ _
  refine ⟨hfold.nextBlock, (Nat.le_succ _).trans hfold.nextData, hfold.dead, fun d y hy ↦ ?_,
    fun d x hx hd hs hlt ↦ hfold.gone d x (by rw [hnew hd.ne, hx]) (Nat.lt_succ_of_lt hd) hs hlt⟩
  by_cases hd : d = w.nextData
  · subst hd
    refine .inr ⟨le_rfl, ?_, ?_⟩
    · obtain ⟨x, hx, -, hs, -⟩ | ⟨hlt, -⟩ := hfold.data _ y hy
      · cases hself.symm.trans hx
        rwa [hs]
      · exact absurd hlt (Nat.not_succ_le_self _)
    · have hstart : (w.ptMap m start pages (some b) flags).1.memPt m start =
          some ⟨w.nextData, (start - start) * pageSize, flags⟩ := by
        rw [memPt_ptMap, if_pos ⟨rfl, le_rfl, by omega⟩]
      rw [hw'.refcount hy]
      exact refs_pos (hw'.slot_mem hstart) (by simp [slot, hstart])
  · obtain ⟨x, hx, h⟩ | ⟨hlt, h⟩ := hfold.data d y hy
    · rw [hnew hd] at hx
      exact .inl ⟨x, hx, h⟩
    · exact .inr ⟨(Nat.le_succ _).trans hlt, h⟩

theorem ptMapFresh_counts {start pages : ℕ} (hw : w.Wf) (hm : m < w.nextMem)
    (hn : start + pages ≤ memPages) (c : ℤ → Byte) (flags : Flags) :
    Counts w (w.ptMapFresh m start pages c flags).1 := by
  by_cases h0 : pages * pageSize % 2 ^ 32 = 0
  · simp only [ptMapFresh, mmap, h0, if_true]
    exact .refl w
  · have hpages : 0 < pages := by
      apply Nat.pos_of_ne_zero
      rintro rfl
      simp at h0
    have hw' := hw.mmap (pages * pageSize % 2 ^ 32) c
    have hc : Counts w (w.mmap (pages * pageSize % 2 ^ 32) c).2 := mmap_counts _ c
    unfold ptMapFresh
    rw [mmap_eq h0] at hw' hc ⊢
    refine hc.trans (ptMap_counts hw' hm hn hpages (Nat.pos_of_ne_zero h0) (Nat.lt_succ_self _)
      (Function.update_self _ _ _) fun d x hx ↦ ?_)
    exact Nat.ne_of_lt (hw.blockLt hx)

theorem ptMapNothing_counts {start pages : ℕ} (hw : w.Wf) (hm : m < w.nextMem)
    (hn : start + pages ≤ memPages) (flags : Flags) :
    Counts w (w.ptMapNothing m start pages flags).1 := by
  unfold ptMapNothing
  split
  · exact .refl w
  · exact ptMapFresh_counts hw hm hn _ _

theorem ptSetFlagsLoop_counts (mprotect : Mprotect) (m : ℕ) (flags : Flags) (pages : List ℕ)
    (w : World) : Counts w (ptSetFlagsLoop mprotect m flags w pages).1 := by
  induction pages generalizing w with
  | nil => exact memChanged_counts
  | cons p pages ih =>
    unfold ptSetFlagsLoop
    split
    · exact .refl w
    · dsimp only
      split
      · exact setPt_counts _
      · exact (setPt_counts _).trans (ih _)

theorem cowPage_counts (src dst sp dp : ℕ) : Counts w (cowPage src dst w sp dp) := by
  cases he : w.memPt src sp with
  | none =>
    rw [cowPage_none he]
    exact .refl w
  | some e =>
    rw [cowPage_eq he]
    exact (((unmapOne_counts dst dp).trans (setPt_counts _)).trans (dataRetain_counts _)).trans
      (setPt_counts _)

theorem grow_counts (hw : w.Wf) (hp : p < memPages) : Counts w (w.grow m p) := by
  unfold grow
  split
  · rename_i h
    have hm := growsTo_nextMem hw (Bool.and_eq_true_iff.mp h).2
    exact ptMapNothing_counts hw hm (by omega) _
  · exact .refl w

theorem cowBreak_counts (hw : w.Wf) (hm : m < w.nextMem) (hp : p < memPages) (e : PtEntry) :
    Counts w (w.cowBreak m p e) := by
  have hsize : 0 < 1 * pageSize % 2 ^ 32 := by decide
  have hw' := (hw.mmap pageSize (fun _ ↦ 0)).memcpyPage w.nextBlock
    ((w.mmap pageSize (fun _ ↦ 0)).2.entryPtr e 0)
  have hcopy : Counts w ((w.mmap pageSize (fun _ ↦ 0)).2.memcpyPage w.nextBlock
      ((w.mmap pageSize (fun _ ↦ 0)).2.entryPtr e 0)) :=
    (mmap_counts pageSize (fun _ ↦ 0)).trans (.of_eq rfl rfl rfl rfl)
  refine hcopy.trans (ptMap_counts hw' hm (Nat.succ_le_of_lt hp) Nat.one_pos hsize
    (Nat.lt_succ_self _) (Function.update_self _ _ _) fun d x hx ↦ ?_)
  exact Nat.ne_of_lt (hw.blockLt hx)

theorem memPtr_counts (hw : w.Wf) (m : ℕ) (addr : Addr) (type : Access) :
    Counts w (w.memPtr m addr type).1 := by
  have hp := page_lt addr
  have hg := hw.grow' m hp
  obtain h | ⟨e, -, -, h⟩ | ⟨e, he, -, -, h⟩ := memPtr_cases w m addr type <;> rw [h]
  · exact grow_counts hw hp
  · exact grow_counts hw hp
  · exact (grow_counts hw hp).trans (cowBreak_counts hg (hg.inRange he).1 hp e)

theorem apply_counts {op : Op} (hw : w.Wf) (hd : w.Defined op) : Counts w (w.apply op) := by
  cases op with
  | new => exact .of_eq rfl rfl rfl rfl
  | retain m => exact .of_eq rfl rfl rfl rfl
  | release m =>
    have hset : Counts w (w.setRefcount m ((w.mem m).refcount - 1)) := .of_eq rfl rfl rfl rfl
    show Counts w (w.memRelease m)
    unfold memRelease
    dsimp only
    split
    · exact hset.trans (ptUnmap_counts _ _ _ _)
    · exact hset
  | mapNothing m start pages flags => exact ptMapNothing_counts hw hd.1.1 hd.2 flags
  | map m start pages c flags => exact ptMapFresh_counts hw hd.1.1 hd.2 c flags
  | unmap m start pages force => exact ptUnmap_counts m start pages force
  | setFlags mprotect m start pages flags =>
    show Counts w (w.ptSetFlags mprotect m start pages flags).1
    unfold ptSetFlags
    split
    · exact .refl w
    · exact ptSetFlagsLoop_counts mprotect m flags _ w
  | copyOnWrite src srcStart dst dstStart pages =>
    exact ((foldl_counts (fun _ _ ↦ cowPage_counts _ _ _ _) _ w).trans memChanged_counts).trans
      memChanged_counts
  | load m addr => exact memPtr_counts hw m addr .read
  | store m addr v =>
    show Counts w (w.store m addr v)
    unfold store
    dsimp only
    split
    · exact memPtr_counts hw m addr .write
    · exact (memPtr_counts hw m addr .write).trans (.of_eq rfl rfl rfl rfl)

theorem counts_of_reaches (hw : w.Wf) (h : Reaches step (fun _ _ ↦ True) w w') :
    Counts w w' ∧ w'.Wf := by
  induction h with
  | start => exact ⟨.refl w, hw⟩
  | next _ _ hs ih =>
    obtain ⟨hd, heq⟩ := Option.ite_none_right_eq_some.mp hs
    cases heq
    exact ⟨ih.1.trans (apply_counts ih.2 hd), ih.2.step hs⟩

/-- The entries of all page tables that point to the block `d`. -/
def pointers (w : World) (d : ℕ) : Set (ℕ × ℕ) := {i | (w.memPt i.1 i.2).map PtEntry.data = some d}

theorem Wf.ncard_pointers (hw : w.Wf) (d : ℕ) : (w.pointers d).ncard = w.entries d := by
  have hset : w.pointers d = (w.slots.filter fun i ↦ w.slot i = some d : Finset (ℕ × ℕ)) := by
    ext i
    rw [Finset.mem_coe, Finset.mem_filter]
    refine ⟨fun h ↦ ⟨?_, h⟩, fun h ↦ h.2⟩
    obtain ⟨e, he, -⟩ := Option.map_eq_some_iff.mp h
    exact hw.slot_mem he
  rw [hset, Set.ncard_coe_finset]
  rfl

end Isl.Emu.Memory.World
