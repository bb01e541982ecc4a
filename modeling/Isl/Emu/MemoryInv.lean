import Isl.Emu.Memory
import Isl.Lib.RefCount
import Isl.Lib.Run
import Mathlib.Data.Finset.Prod
import Mathlib.Algebra.Order.Ring.Nat
import Mathlib.Order.Interval.Finset.Nat
import Mathlib.Tactic.Ring

/-!
Block sharing: in every state the operations of `emu/memory.c` reach, the
refcount of a block is the number of page table entries that point to it.
-/

namespace Isl.Emu.Memory

open Isl.Lib.RefCount Isl.Lib.Run

namespace World

variable {w : World} {m m' p p' d : ℕ}

theorem memPt_setPt (w : World) (m p m' p' : ℕ) (e : Option PtEntry) :
    (w.setPt m p e).memPt m' p' = if m' = m ∧ p' = p then e else w.memPt m' p' := by
  unfold memPt setPt
  by_cases hm : m' = m
  · subst hm
    by_cases hp : p' = p
    · subst hp; simp
    · simp [hp]
  · simp [hm]

@[simp] theorem memPt_setPt_self (w : World) (m p : ℕ) (e : Option PtEntry) :
    (w.setPt m p e).memPt m p = e := by
  simp [memPt_setPt]

@[simp] theorem setPt_data (e : Option PtEntry) : (w.setPt m p e).data = w.data := rfl
@[simp] theorem setPt_nextData (e : Option PtEntry) : (w.setPt m p e).nextData = w.nextData := rfl
@[simp] theorem setPt_live (e : Option PtEntry) : (w.setPt m p e).live = w.live := rfl
@[simp] theorem setPt_byte (e : Option PtEntry) : (w.setPt m p e).byte = w.byte := rfl
@[simp] theorem setPt_nextBlock (e : Option PtEntry) :
    (w.setPt m p e).nextBlock = w.nextBlock := rfl
@[simp] theorem setPt_nextMem (e : Option PtEntry) : (w.setPt m p e).nextMem = w.nextMem := rfl

@[simp] theorem setPt_changes (e : Option PtEntry) (m' : ℕ) :
    ((w.setPt m p e).mem m').changes = (w.mem m').changes := by
  unfold setPt
  by_cases h : m' = m
  · subst h; simp
  · simp [h]

@[simp] theorem memChanged_memPt (w : World) (m : ℕ) : (w.memChanged m).memPt = w.memPt := by
  funext m' p
  unfold memPt memChanged
  by_cases h : m' = m
  · subst h; simp
  · simp [h]

@[simp] theorem memChanged_data : (w.memChanged m).data = w.data := rfl
@[simp] theorem memChanged_nextData : (w.memChanged m).nextData = w.nextData := rfl
@[simp] theorem memChanged_live : (w.memChanged m).live = w.live := rfl
@[simp] theorem memChanged_byte : (w.memChanged m).byte = w.byte := rfl
@[simp] theorem memChanged_nextBlock : (w.memChanged m).nextBlock = w.nextBlock := rfl
@[simp] theorem memChanged_nextMem : (w.memChanged m).nextMem = w.nextMem := rfl

theorem memChanged_changes (w : World) (m m' : ℕ) :
    ((w.memChanged m).mem m').changes =
      (w.mem m').changes + if m' = m then 1 else 0 := by
  unfold memChanged
  by_cases h : m' = m
  · subst h; simp
  · simp [h]

@[simp] theorem dataRetain_memPt : (w.dataRetain d).memPt = w.memPt := rfl
@[simp] theorem dataRetain_mem : (w.dataRetain d).mem = w.mem := rfl
@[simp] theorem dataNew_memPt (b s : ℕ) : (w.dataNew b s).memPt = w.memPt := rfl
@[simp] theorem dataNew_mem (b s : ℕ) : (w.dataNew b s).mem = w.mem := rfl
@[simp] theorem munmap_mem (b s : ℕ) : (w.munmap b s).mem = w.mem := by
  unfold munmap; split <;> rfl
@[simp] theorem munmap_byte (b s : ℕ) : (w.munmap b s).byte = w.byte := by
  unfold munmap; split <;> rfl
@[simp] theorem munmap_data (b s : ℕ) : (w.munmap b s).data = w.data := by
  unfold munmap; split <;> rfl
@[simp] theorem munmap_nextData (b s : ℕ) : (w.munmap b s).nextData = w.nextData := by
  unfold munmap; split <;> rfl
@[simp] theorem munmap_nextBlock (b s : ℕ) : (w.munmap b s).nextBlock = w.nextBlock := by
  unfold munmap; split <;> rfl
@[simp] theorem munmap_nextMem (b s : ℕ) : (w.munmap b s).nextMem = w.nextMem := by
  unfold munmap; split <;> rfl

theorem munmap_live_of_ne {b s b' : ℕ} (h : b' ≠ b) : (w.munmap b s).live b' = w.live b' := by
  unfold munmap; split
  · rfl
  · simp [h]

/-- What the page tables hold, as the slots of a finite table. -/
def slot (w : World) (i : ℕ × ℕ) : Option ℕ := (w.memPt i.1 i.2).map PtEntry.data

def slots (w : World) : Finset (ℕ × ℕ) := Finset.range w.nextMem ×ˢ Finset.range memPages

def entries (w : World) (d : ℕ) : ℕ := refs w.slots w.slot d

theorem slot_setPt (w : World) (m p : ℕ) (e : Option PtEntry) :
    (w.setPt m p e).slot = Function.update w.slot (m, p) (e.map PtEntry.data) := by
  funext ⟨m', p'⟩
  simp only [slot, memPt_setPt, Function.update_apply, Prod.mk.injEq]
  split <;> rfl

/-- The sharing invariant. Every entry points to an allocated block with a
host mapping of its own, and the refcount counts the entries. -/
structure Wf (w : World) : Prop where
  inRange : ∀ {m p e}, w.memPt m p = some e → m < w.nextMem ∧ p < memPages
  mapped : ∀ {m p e}, w.memPt m p = some e → ∃ x, w.data e.data = some x
  aligned : ∀ {m p e}, w.memPt m p = some e → pageSize ∣ e.offset
  dataLt : ∀ {d x}, w.data d = some x → d < w.nextData
  blockLt : ∀ {d x}, w.data d = some x → x.data < w.nextBlock
  blockLive : ∀ {d x}, w.data d = some x → w.live x.data = true
  blockInj : ∀ {d d' x x'}, w.data d = some x → w.data d' = some x' → x.data = x'.data → d = d'
  refcount : ∀ {d x}, w.data d = some x → x.refcount = w.entries d

theorem init_wf : init.Wf := by
  constructor <;> intros <;> simp_all [init, memPt, Mem.empty]

theorem Wf.entries_none (hw : w.Wf) (hd : w.data d = none) : w.entries d = 0 := by
  refine refs_eq_zero_iff.mpr (fun i _ hs ↦ ?_)
  obtain ⟨e, he, rfl⟩ := Option.map_eq_some_iff.mp hs
  obtain ⟨x, hx⟩ := hw.mapped he
  rw [hd] at hx
  cases hx

/-- Operations that leave the tables and blocks alone keep the invariant. -/
theorem Wf.congr {w' : World} (hw : w.Wf) (hpt : w'.memPt = w.memPt) (hdata : w'.data = w.data)
    (hm : w'.nextMem = w.nextMem) (hd : w.nextData ≤ w'.nextData)
    (hb : w.nextBlock ≤ w'.nextBlock)
    (hl : ∀ b, b < w.nextBlock → w'.live b = w.live b) : w'.Wf := by
  have hentries (d : ℕ) : w'.entries d = w.entries d := by
    unfold entries slots
    rw [hm]
    exact refs_congr (fun i _ ↦ by simp only [slot, hpt])
  constructor
  · intro m p e he
    rw [hpt] at he
    rw [hm]
    exact hw.inRange he
  · intro m p e he
    rw [hpt] at he
    rw [hdata]
    exact hw.mapped he
  · intro m p e he
    rw [hpt] at he
    exact hw.aligned he
  · intro d x hx
    rw [hdata] at hx
    exact (hw.dataLt hx).trans_le hd
  · intro d x hx
    rw [hdata] at hx
    exact (hw.blockLt hx).trans_le hb
  · intro d x hx
    rw [hdata] at hx
    rw [hl _ (hw.blockLt hx)]
    exact hw.blockLive hx
  · intro d d' x x' hx hx' h
    rw [hdata] at hx hx'
    exact hw.blockInj hx hx' h
  · intro d x hx
    rw [hdata] at hx
    rw [hentries]
    exact hw.refcount hx

theorem Wf.memChanged (hw : w.Wf) (m : ℕ) : (w.memChanged m).Wf :=
  hw.congr (by simp) rfl rfl le_rfl le_rfl (fun _ _ ↦ rfl)

theorem Wf.hostWrite (hw : w.Wf) (q : Ptr) (v : Byte) : (w.hostWrite q v).Wf :=
  hw.congr rfl rfl rfl le_rfl le_rfl (fun _ _ ↦ rfl)

theorem Wf.memcpyPage (hw : w.Wf) (b : ℕ) (q : Ptr) : (w.memcpyPage b q).Wf :=
  hw.congr rfl rfl rfl le_rfl le_rfl (fun _ _ ↦ rfl)

theorem Wf.mmap (hw : w.Wf) (size : ℕ) (c : ℤ → Byte) : (w.mmap size c).2.Wf := by
  unfold World.mmap
  split
  · exact hw
  · refine hw.congr rfl rfl rfl le_rfl (Nat.le_succ _) (fun b hb ↦ ?_)
    simp [Nat.ne_of_lt hb]

/-- Rewriting an entry in place moves no reference. -/
theorem Wf.setPt_same {e f : PtEntry} (hw : w.Wf) (he : w.memPt m p = some e)
    (hd : f.data = e.data) (ho : f.offset = e.offset) : (w.setPt m p (some f)).Wf := by
  have hslot : (w.setPt m p (some f)).slot = w.slot := by
    rw [slot_setPt]
    refine Function.update_eq_self_iff.mpr ?_
    simp [slot, he, hd]
  have hold {m' p' : ℕ} {k : PtEntry} (hk : (w.setPt m p (some f)).memPt m' p' = some k) :
      ∃ g, w.memPt m' p' = some g ∧ k.data = g.data ∧ k.offset = g.offset := by
    rw [memPt_setPt] at hk
    split at hk
    · rename_i h
      obtain ⟨rfl, rfl⟩ := h
      cases hk
      exact ⟨e, he, hd, ho⟩
    · exact ⟨k, hk, rfl, rfl⟩
  refine ⟨fun hf ↦ ?_, fun hf ↦ ?_, fun hf ↦ ?_, hw.dataLt, hw.blockLt, hw.blockLive,
    hw.blockInj, fun hx ↦ ?_⟩
  · obtain ⟨g, hg, -, -⟩ := hold hf
    exact hw.inRange hg
  · obtain ⟨g, hg, h, -⟩ := hold hf
    rw [h]
    exact hw.mapped hg
  · obtain ⟨g, hg, -, h⟩ := hold hf
    simpa only [h] using hw.aligned hg
  · simp only [entries, slots, hslot]
    exact hw.refcount hx

/-- A change of the tables together with the refcount of the one block it
is about. -/
theorem Wf.recount {w' : World} {x : Data} {n : ℕ} (hw : w.Wf) (hx : w.data d = some x)
    (hdata : w'.data = Function.update w.data d (some { x with refcount := n }))
    (hlive : w'.live = w.live) (hnd : w'.nextData = w.nextData)
    (hnb : w'.nextBlock = w.nextBlock)
    (hpt : ∀ {m p e}, w'.memPt m p = some e →
      (m < w'.nextMem ∧ p < memPages) ∧ pageSize ∣ e.offset ∧ ∃ y, w.data e.data = some y)
    (hn : n = w'.entries d) (hother : ∀ d', d ≠ d' → w'.entries d' = w.entries d') : w'.Wf := by
  have hold {d' : ℕ} {y : Data} (hy : w'.data d' = some y) :
      ∃ z, w.data d' = some z ∧ z.data = y.data := by
    rw [hdata, Function.update_apply] at hy
    split at hy
    · rename_i h
      cases hy
      exact ⟨x, h ▸ hx, rfl⟩
    · exact ⟨y, hy, rfl⟩
  refine ⟨fun he ↦ (hpt he).1, fun {m p e} he ↦ ?_, fun he ↦ (hpt he).2.1, fun hy ↦ ?_,
    fun hy ↦ ?_, fun hy ↦ ?_, fun hy hy' h ↦ ?_, fun {d' y} hy ↦ ?_⟩
  · obtain ⟨y, hy⟩ := (hpt he).2.2
    rw [hdata, Function.update_apply]
    split
    · exact ⟨_, rfl⟩
    · exact ⟨y, hy⟩
  · obtain ⟨z, hz, -⟩ := hold hy
    exact hnd ▸ hw.dataLt hz
  · obtain ⟨z, hz, h⟩ := hold hy
    exact hnb ▸ h ▸ hw.blockLt hz
  · obtain ⟨z, hz, h⟩ := hold hy
    exact hlive ▸ h ▸ hw.blockLive hz
  · obtain ⟨z, hz, hd⟩ := hold hy
    obtain ⟨z', hz', hd'⟩ := hold hy'
    exact hw.blockInj hz hz' (by rw [hd, hd', h])
  · by_cases h : d = d'
    · subst h
      rw [hdata, Function.update_self] at hy
      cases hy
      exact hn
    · rw [hdata, Function.update_of_ne (Ne.symm h)] at hy
      rw [hother d' h]
      exact hw.refcount hy

/-- A block nothing points to may be freed. -/
theorem Wf.free {w' : World} {x : Data} (hw : w.Wf) (hx : w.data d = some x)
    (h0 : w.entries d = 0) (hmem : w'.mem = w.mem) (hnm : w'.nextMem = w.nextMem)
    (hdata : w'.data = Function.update w.data d none)
    (hlive : ∀ b, b ≠ x.data → w'.live b = w.live b) (hnd : w'.nextData = w.nextData)
    (hnb : w'.nextBlock = w.nextBlock) : w'.Wf := by
  have hpt : w'.memPt = w.memPt := by
    unfold memPt
    rw [hmem]
  have hentries (d' : ℕ) : w'.entries d' = w.entries d' := by
    unfold entries slots slot
    rw [hnm, hpt]
  have hold {d' : ℕ} {y : Data} (hy : w'.data d' = some y) : d' ≠ d ∧ w.data d' = some y := by
    rw [hdata, Function.update_apply] at hy
    split at hy
    · cases hy
    · exact ⟨‹_›, hy⟩
  refine ⟨fun he ↦ ?_, fun {m p e} he ↦ ?_, fun he ↦ ?_, fun hy ↦ ?_, fun hy ↦ ?_, fun hy ↦ ?_,
    fun hy hy' ↦ hw.blockInj (hold hy).2 (hold hy').2, fun hy ↦ ?_⟩
  · exact hnm ▸ hw.inRange (hpt ▸ he)
  · rw [hpt] at he
    have hne : e.data ≠ d := by
      intro h
      have hin : (m, p) ∈ w.slots := by simpa [slots] using hw.inRange he
      exact refs_eq_zero_iff.mp h0 (m, p) hin (by simp [slot, he, h])
    rw [hdata, Function.update_of_ne hne]
    exact hw.mapped he
  · exact hw.aligned (hpt ▸ he)
  · exact hnd ▸ hw.dataLt (hold hy).2
  · exact hnb ▸ hw.blockLt (hold hy).2
  · obtain ⟨hne, hy⟩ := hold hy
    rw [hlive _ (fun h ↦ hne (hw.blockInj hy hx h))]
    exact hw.blockLive hy
  · rw [hentries]
    exact hw.refcount (hold hy).2

theorem Wf.slot_mem {e : PtEntry} (hw : w.Wf) (he : w.memPt m p = some e) :
    (m, p) ∈ w.slots := by
  simpa [slots] using hw.inRange he

/-- Taking an entry away drops one reference. -/
theorem Wf.dropEntry {e : PtEntry} {x : Data} (hw : w.Wf) (he : w.memPt m p = some e)
    (hx : w.data e.data = some x) :
    { w.memPtDel m p with
      data := Function.update w.data e.data
        (some { x with refcount := x.refcount - 1 }) : World }.Wf := by
  have hs : w.slot (m, p) = some e.data := by simp [slot, he]
  have hcount (d : ℕ) : (w.memPtDel m p).entries d + (if e.data = d then 1 else 0) =
      w.entries d := by
    unfold entries memPtDel
    rw [slot_setPt]
    exact refs_clear (hw.slot_mem he) hs d
  refine hw.recount hx rfl rfl rfl rfl (fun {m' p' f} hf ↦ ?_) ?_ (fun d hd ↦ ?_)
  · have hf' : (w.memPtDel m p).memPt m' p' = some f := hf
    rw [memPtDel, memPt_setPt] at hf'
    split at hf'
    · cases hf'
    · exact ⟨hw.inRange hf', hw.aligned hf', hw.mapped hf'⟩
  · have h := hcount e.data
    rw [if_pos rfl] at h
    rw [hw.refcount hx, ← h]
    exact Nat.add_sub_cancel _ _
  · have h := hcount d
    rw [if_neg hd] at h
    exact h

theorem Wf.ptUnmapPage (hw : w.Wf) (m p : ℕ) : (w.ptUnmapPage m p).Wf := by
  unfold World.ptUnmapPage
  cases he : w.memPt m p with
  | none => exact hw
  | some e =>
    obtain ⟨x, hx⟩ := hw.mapped he
    have hdrop := hw.dropEntry he hx
    simp only [dataRelease, memPtDel, setPt_data, hx]
    split
    case isTrue h1 =>
      have h0 := hdrop.refcount (Function.update_self _ _ _)
      simp only [h1, Nat.sub_self] at h0
      refine hdrop.free (x := { x with refcount := x.refcount - 1 }) (Function.update_self _ _ _)
        (h1 ▸ h0.symm) ?_ ?_ ?_ ?_ ?_ ?_
      · simp [memPtDel]
      · simp [memPtDel]
      · simp
      · intro b hb
        exact munmap_live_of_ne hb
      · simp [memPtDel]
      · simp [memPtDel]
    case isFalse h1 => exact hdrop

theorem foldl_wf {α : Type*} {f : World → α → World} (hf : ∀ w a, w.Wf → (f w a).Wf)
    (as : List α) (hw : w.Wf) : (as.foldl f w).Wf := by
  induction as generalizing w with
  | nil => exact hw
  | cons a as ih => exact ih (hf w a hw)

theorem Wf.ptUnmap (hw : w.Wf) (m start pages : ℕ) (force : Bool) :
    (w.ptUnmap m start pages force).1.Wf := by
  unfold World.ptUnmap
  split
  · exact hw
  · exact (foldl_wf (fun w p hw ↦ hw.ptUnmapPage m p) _ hw).memChanged m

@[simp] theorem dataRelease_mem (w : World) (d : ℕ) : (w.dataRelease d).mem = w.mem := by
  unfold dataRelease
  split
  · rfl
  · split
    · exact munmap_mem _ _
    · rfl

theorem dataRelease_data_of_ne (h : d ≠ p) : (w.dataRelease p).data d = w.data d := by
  unfold dataRelease
  split
  · rfl
  · split <;> simp [h]

@[simp] theorem dataRelease_nextMem (w : World) (d : ℕ) :
    (w.dataRelease d).nextMem = w.nextMem := by
  unfold dataRelease
  split
  · rfl
  · split
    · exact munmap_nextMem _ _
    · rfl

theorem memPt_ptUnmapPage (w : World) (m p m' p' : ℕ) :
    (w.ptUnmapPage m p).memPt m' p' = if m' = m ∧ p' = p then none else w.memPt m' p' := by
  unfold ptUnmapPage
  split
  · split
    · simp_all
    · rfl
  · rw [memPt, dataRelease_mem]
    exact memPt_setPt _ _ _ _ _ _

theorem ptUnmapPage_data_of_ne (h : w.slot (m, p) ≠ some d) :
    (w.ptUnmapPage m p).data d = w.data d := by
  unfold ptUnmapPage
  split
  · rfl
  · rename_i e he
    exact dataRelease_data_of_ne (fun hd ↦ h (by simp [slot, he, hd]))

/-- One page unmapped by name, present or not. -/
def unmapOne (w : World) (m p : ℕ) : World := (w.ptUnmapPage m p).memChanged m

theorem ptUnmap_one (h : (w.memPt m p).isSome) : (w.ptUnmap m p 1 false).1 = w.unmapOne m p := by
  simp [ptUnmap, unmapOne, List.range'_one, Option.isNone_iff_eq_none, Option.isSome_iff_ne_none.mp h]

theorem ptUnmap_force_one (w : World) (m p : ℕ) : (w.ptUnmap m p 1 true).1 = w.unmapOne m p := by
  simp [ptUnmap, unmapOne, List.range'_one]

theorem Wf.unmapOne (hw : w.Wf) (m p : ℕ) : (w.unmapOne m p).Wf :=
  (hw.ptUnmapPage m p).memChanged m

theorem memPt_unmapOne (w : World) (m p m' p' : ℕ) :
    (w.unmapOne m p).memPt m' p' = if m' = m ∧ p' = p then none else w.memPt m' p' := by
  rw [unmapOne, memChanged_memPt, memPt_ptUnmapPage]

@[simp] theorem unmapOne_nextMem (w : World) (m p : ℕ) :
    (w.unmapOne m p).nextMem = w.nextMem := by
  rw [unmapOne, memChanged_nextMem, ptUnmapPage]
  split
  · rfl
  · exact dataRelease_nextMem _ _

/-- The page as a map operation finds it, the entry it overwrites being gone. -/
def evict (w : World) (m p : ℕ) : World := if (w.memPt m p).isSome then w.unmapOne m p else w

theorem ptMapPage_eq (m d start : ℕ) (flags : Flags) (w : World) (p : ℕ) :
    ptMapPage m d start flags w p =
      ((w.evict m p).dataRetain d).setPt m p (some ⟨d, (p - start) * pageSize, flags⟩) := by
  unfold ptMapPage evict
  split
  · rw [ptUnmap_one ‹_›]
  · rfl

theorem Wf.evict (hw : w.Wf) (m p : ℕ) : (w.evict m p).Wf := by
  unfold World.evict
  split
  · exact hw.unmapOne m p
  · exact hw

theorem memPt_evict (w : World) (m p m' p' : ℕ) :
    (w.evict m p).memPt m' p' = if m' = m ∧ p' = p then none else w.memPt m' p' := by
  unfold evict
  split
  · exact memPt_unmapOne _ _ _ _ _
  · rename_i h
    split
    · rename_i he
      rw [he.1, he.2]
      simpa using h
    · rfl

@[simp] theorem evict_nextMem (w : World) (m p : ℕ) : (w.evict m p).nextMem = w.nextMem := by
  unfold evict
  split
  · exact unmapOne_nextMem _ _ _
  · rfl

theorem evict_data_of_ne (h : w.slot (m, p) ≠ some d) : (w.evict m p).data d = w.data d := by
  unfold evict
  split
  · exact ptUnmapPage_data_of_ne h
  · rfl

@[simp] theorem dataRetain_nextMem : (w.dataRetain d).nextMem = w.nextMem := rfl

/-- Filling an empty entry adds one reference. -/
theorem Wf.addEntry {e : PtEntry} {x : Data} (hw : w.Wf) (hnone : w.memPt m p = none)
    (hm : m < w.nextMem) (hp : p < memPages) (he : pageSize ∣ e.offset)
    (hx : w.data e.data = some x) : ((w.dataRetain e.data).setPt m p (some e)).Wf := by
  have hcount (d : ℕ) : ((w.dataRetain e.data).setPt m p (some e)).entries d =
      w.entries d + if e.data = d then 1 else 0 := by
    unfold entries
    rw [slot_setPt]
    exact refs_fill (by simp [slots, hm, hp]) (by simp [slot, hnone]) d
  refine hw.recount (n := x.refcount + 1) hx (by simp [dataRetain, hx]) rfl rfl rfl
    (fun {m' p' f} hf ↦ ?_) ?_ (fun d hd ↦ ?_)
  · rw [memPt_setPt] at hf
    split at hf
    · rename_i h
      obtain ⟨rfl, rfl⟩ := h
      cases hf
      exact ⟨⟨hm, hp⟩, he, x, hx⟩
    · exact ⟨hw.inRange hf, hw.aligned hf, hw.mapped hf⟩
  · rw [hcount, if_pos rfl, hw.refcount hx]
  · rw [hcount, if_neg hd, Nat.add_zero]

/-- A block no other entry has is ready to be mapped. -/
theorem Wf.dataNew {b s : ℕ} (hw : w.Wf) (hb : b < w.nextBlock) (hl : w.live b = true)
    (hfree : ∀ d x, w.data d = some x → x.data ≠ b) : (w.dataNew b s).Wf := by
  have hnew : w.data w.nextData = none := by
    cases h : w.data w.nextData with
    | none => rfl
    | some x => exact absurd (hw.dataLt h) (lt_irrefl _)
  have hold {d : ℕ} {x : Data} (hx : (w.dataNew b s).data d = some x) :
      (d = w.nextData ∧ x = ⟨b, s, 0⟩) ∨ (d ≠ w.nextData ∧ w.data d = some x) := by
    simp only [World.dataNew, Function.update_apply] at hx
    split at hx
    · cases hx
      exact .inl ⟨‹_›, rfl⟩
    · exact .inr ⟨‹_›, hx⟩
  refine ⟨hw.inRange, fun {m p e} he ↦ ?_, hw.aligned, fun hx ↦ ?_, fun hx ↦ ?_, fun hx ↦ ?_,
    fun hx hx' h ↦ ?_, fun hx ↦ ?_⟩
  · obtain ⟨x, hx⟩ := hw.mapped he
    refine ⟨x, (Function.update_of_ne (fun h ↦ ?_) _ _).trans hx⟩
    rw [h, hnew] at hx
    cases hx
  · obtain ⟨rfl, -⟩ | ⟨-, hx⟩ := hold hx
    · exact Nat.lt_succ_self _
    · exact Nat.lt_succ_of_lt (hw.dataLt hx)
  · obtain ⟨-, rfl⟩ | ⟨-, hx⟩ := hold hx
    · exact hb
    · exact hw.blockLt hx
  · obtain ⟨-, rfl⟩ | ⟨-, hx⟩ := hold hx
    · exact hl
    · exact hw.blockLive hx
  · obtain ⟨rfl, rfl⟩ | ⟨-, hx⟩ := hold hx <;> obtain ⟨rfl, rfl⟩ | ⟨-, hx'⟩ := hold hx'
    · rfl
    · exact absurd h.symm (hfree _ _ hx')
    · exact absurd h (hfree _ _ hx)
    · exact hw.blockInj hx hx' h
  · obtain ⟨rfl, rfl⟩ | ⟨-, hx⟩ := hold hx
    · exact (hw.entries_none hnew).symm
    · exact hw.refcount hx

/-- While a range is being mapped, only the pages behind the current one
point to the new block. -/
theorem foldl_ptMapPage {start : ℕ} {flags : Flags} (n from_ : ℕ) (hw : w.Wf)
    (hm : m < w.nextMem) (hn : from_ + n ≤ memPages) (hd : ∃ x, w.data d = some x)
    (hbehind : ∀ p, from_ ≤ p → w.slot (m, p) ≠ some d) :
    ((List.range' from_ n).foldl (ptMapPage m d start flags) w).Wf := by
  induction n generalizing w from_ with
  | zero => exact hw
  | succ n ih =>
    rw [List.range'_succ, List.foldl_cons, ptMapPage_eq]
    obtain ⟨x, hx⟩ := hd
    have hx' : (w.evict m from_).data d = some x :=
      (evict_data_of_ne (hbehind from_ le_rfl)).trans hx
    have hw' := (hw.evict m from_).addEntry (m := m) (p := from_)
      (e := ⟨d, (from_ - start) * pageSize, flags⟩)
      (by simp [memPt_evict]) (by simpa using hm) (by omega) (Dvd.intro_left _ rfl) hx'
    refine ih (from_ + 1) hw' (by simpa using hm) (by omega)
      ⟨{ x with refcount := x.refcount + 1 }, by simp [dataRetain, hx']⟩ (fun p hp ↦ ?_)
    have hne : p ≠ from_ := by omega
    have hb := hbehind p (by omega)
    simpa [slot, memPt_setPt, memPt_evict, hne] using hb

theorem Wf.ptMap {b : ℕ} (hw : w.Wf) (m start pages : ℕ) (flags : Flags)
    (hm : m < w.nextMem) (hn : start + pages ≤ memPages) (hb : b < w.nextBlock)
    (hl : w.live b = true) (hfree : ∀ d x, w.data d = some x → x.data ≠ b) :
    (w.ptMap m start pages (some b) flags).1.Wf := by
  have hnew : w.data w.nextData = none := by
    cases h : w.data w.nextData with
    | none => rfl
    | some x => exact absurd (hw.dataLt h) (lt_irrefl _)
  refine foldl_ptMapPage pages start (hw.dataNew hb hl hfree) hm hn
    ⟨_, Function.update_self _ _ _⟩ (fun p _ hs ↦ ?_)
  obtain ⟨e, he, hed⟩ := Option.map_eq_some_iff.mp hs
  obtain ⟨x, hx⟩ := hw.mapped he
  rw [hed, hnew] at hx
  cases hx

theorem Wf.ptMapFresh (hw : w.Wf) (m start pages : ℕ) (c : ℤ → Byte) (flags : Flags)
    (hm : m < w.nextMem) (hn : start + pages ≤ memPages) :
    (w.ptMapFresh m start pages c flags).1.Wf := by
  have hw' := hw.mmap (pages * pageSize % 2 ^ 32) c
  unfold World.ptMapFresh World.mmap at *
  split at hw' <;> rename_i h0
  · simp only [h0, if_true]
    exact hw
  · simp only [h0, if_false]
    refine hw'.ptMap m start pages flags hm hn (Nat.lt_succ_self _) (by simp) (fun d x hx ↦ ?_)
    exact (Nat.ne_of_lt (hw.blockLt hx))

theorem Wf.ptMapNothing (hw : w.Wf) (m start pages : ℕ) (flags : Flags)
    (hm : m < w.nextMem) (hn : start + pages ≤ memPages) :
    (w.ptMapNothing m start pages flags).1.Wf := by
  unfold World.ptMapNothing
  split
  · exact hw
  · exact hw.ptMapFresh m start pages _ _ hm hn

theorem Wf.ptSetFlagsLoop (mprotect : Mprotect) (m : ℕ) (flags : Flags) (pages : List ℕ)
    (hw : w.Wf) : (ptSetFlagsLoop mprotect m flags w pages).1.Wf := by
  induction pages generalizing w with
  | nil => exact hw.memChanged m
  | cons p pages ih =>
    unfold World.ptSetFlagsLoop
    split
    · exact hw
    · rename_i e he
      have hw' := hw.setPt_same (f := { e with flags := flags }) he rfl rfl
      dsimp only
      split
      · exact hw'
      · exact ih hw'

theorem Wf.ptSetFlags (hw : w.Wf) (mprotect : Mprotect) (m start pages : ℕ) (flags : Flags) :
    (w.ptSetFlags mprotect m start pages flags).1.Wf := by
  unfold World.ptSetFlags
  split
  · exact hw
  · exact hw.ptSetFlagsLoop mprotect m flags _

/-- A block with another entry survives the loss of one. -/
theorem Wf.data_unmapOne {e : PtEntry} (hw : w.Wf) (he : w.memPt m' p' = some e)
    (hne : ¬(m' = m ∧ p' = p)) : ∃ x, (w.unmapOne m p).data e.data = some x := by
  refine (hw.unmapOne m p).mapped (m := m') (p := p') ?_
  rw [memPt_unmapOne, if_neg hne, he]

theorem cowPage_eq {src dst sp dp : ℕ} {e : PtEntry} (he : w.memPt src sp = some e) :
    cowPage src dst w sp dp =
      (((w.unmapOne dst dp).setPt src sp (some { e with flags := cowFlags e.flags })).dataRetain
        e.data).setPt dst dp (some { e with flags := cowFlags e.flags }) := by
  simp only [cowPage, he, ptUnmap_force_one]

theorem cowPage_none {src dst sp dp : ℕ} (he : w.memPt src sp = none) :
    cowPage src dst w sp dp = w := by
  simp only [cowPage, he]

theorem Wf.cowPage {src dst : ℕ} (hw : w.Wf) (hne : src ≠ dst) (hdst : dst < w.nextMem)
    (sp dp : ℕ) (hdp : dp < memPages) : (cowPage src dst w sp dp).Wf := by
  cases he : w.memPt src sp with
  | none =>
    rw [cowPage_none he]
    exact hw
  | some e =>
    rw [cowPage_eq he]
    have he' : (w.unmapOne dst dp).memPt src sp = some e := by
      rw [memPt_unmapOne, if_neg (fun h ↦ hne h.1), he]
    obtain ⟨x, hx⟩ := hw.data_unmapOne (m := dst) (p := dp) he (fun h ↦ hne h.1)
    have hw₁ := (hw.unmapOne dst dp).setPt_same (f := { e with flags := cowFlags e.flags })
      he' rfl rfl
    refine hw₁.addEntry (e := { e with flags := cowFlags e.flags }) (m := dst) ?_
      (by simpa using hdst) hdp ?_ hx
    · rw [memPt_setPt, if_neg (fun h ↦ hne h.1.symm), memPt_unmapOne, if_pos ⟨rfl, rfl⟩]
    · have ho := hw.aligned he
      exact ho

@[simp] theorem cowPage_nextMem (src dst sp dp : ℕ) :
    (World.cowPage src dst w sp dp).nextMem = w.nextMem := by
  cases he : w.memPt src sp with
  | none => rw [cowPage_none he]
  | some e =>
    rw [cowPage_eq he]
    simp

/-- The first `n` pages of a copy. -/
def cowPages (w : World) (src srcStart dst dstStart n : ℕ) : World :=
  (List.range n).foldl (fun w i ↦ World.cowPage src dst w (srcStart + i) (dstStart + i)) w

theorem cowPages_succ (w : World) (src srcStart dst dstStart n : ℕ) :
    w.cowPages src srcStart dst dstStart (n + 1) =
      World.cowPage src dst (w.cowPages src srcStart dst dstStart n) (srcStart + n)
        (dstStart + n) := by
  simp [cowPages, List.range_succ]

theorem ptCopyOnWrite_eq (w : World) (src srcStart dst dstStart pages : ℕ) :
    (w.ptCopyOnWrite src srcStart dst dstStart pages).1 =
      ((w.cowPages src srcStart dst dstStart pages).memChanged src).memChanged dst := rfl

@[simp] theorem cowPages_nextMem (src srcStart dst dstStart n : ℕ) :
    (w.cowPages src srcStart dst dstStart n).nextMem = w.nextMem := by
  induction n with
  | zero => rfl
  | succ n ih => rw [cowPages_succ, cowPage_nextMem, ih]

theorem Wf.cowPages {src dst : ℕ} (hw : w.Wf) (hne : src ≠ dst) (hdst : dst < w.nextMem)
    (srcStart dstStart n : ℕ) (hn : dstStart + n ≤ memPages) :
    (w.cowPages src srcStart dst dstStart n).Wf := by
  induction n with
  | zero => exact hw
  | succ n ih =>
    rw [cowPages_succ]
    exact (ih (by omega)).cowPage hne (by simpa using hdst) _ _ (by omega)

theorem Wf.ptCopyOnWrite {src dst : ℕ} (hw : w.Wf) (hne : src ≠ dst) (hdst : dst < w.nextMem)
    (srcStart dstStart pages : ℕ) (hn : dstStart + pages ≤ memPages) :
    (w.ptCopyOnWrite src srcStart dst dstStart pages).1.Wf :=
  ((hw.cowPages hne hdst srcStart dstStart pages hn).memChanged src).memChanged dst

theorem Wf.grow (hw : w.Wf) (hm : m < w.nextMem) (hp : p < memPages) : (w.grow m p).Wf := by
  unfold World.grow
  split
  · exact hw.ptMapNothing m p 1 _ hm (by omega)
  · exact hw

theorem Wf.cowBreak (hw : w.Wf) (e : PtEntry) (hm : m < w.nextMem) (hp : p < memPages) :
    (w.cowBreak m p e).Wf := by
  have hw' := (hw.mmap pageSize (fun _ ↦ 0)).memcpyPage w.nextBlock
    ((w.mmap pageSize (fun _ ↦ 0)).2.entryPtr e 0)
  refine hw'.ptMap m p 1 _ hm (by omega) ?_ ?_ (fun d x hx ↦ ?_)
  · exact Nat.lt_succ_self _
  · exact Function.update_self _ _ _
  · exact Nat.ne_of_lt (hw.blockLt hx)

theorem page_lt (addr : Addr) : page addr < memPages := by
  have h := addr.isLt
  have hp : memPages = 1048576 := rfl
  unfold page pageSize
  omega

theorem growsTo_nextMem (hw : w.Wf) (h : w.growsTo m p) : m < w.nextMem := by
  unfold growsTo at h
  split at h
  · cases h
  · rename_i e he
    obtain ⟨q, -, hq⟩ := Option.bind_eq_some_iff.mp he
    exact (hw.inRange hq).1

theorem Wf.grow' (hw : w.Wf) (m : ℕ) (hp : p < memPages) : (w.grow m p).Wf := by
  by_cases hg : w.growsTo m p
  · exact hw.grow (growsTo_nextMem hw hg) hp
  · simpa [World.grow, hg] using hw

/-- What an access does: it fails, gives the entry's own memory, or first
replaces a page that is to be copied on write. -/
theorem memPtr_cases (w : World) (m : ℕ) (addr : Addr) (type : Access) :
    w.memPtr m addr type = (w.grow m (page addr), none) ∨
    (∃ e, (w.grow m (page addr)).memPt m (page addr) = some e ∧
      (type = .write → pWritable e.flags) ∧
      w.memPtr m addr type = (w.grow m (page addr),
        some ((w.grow m (page addr)).entryPtr e (pgOffset addr)))) ∨
    ∃ e, (w.grow m (page addr)).memPt m (page addr) = some e ∧ type = .write ∧
      has e.flags pWrite ∧
      w.memPtr m addr type = ((w.grow m (page addr)).cowBreak m (page addr) e,
        (((w.grow m (page addr)).cowBreak m (page addr) e).memPt m (page addr)).map
          (((w.grow m (page addr)).cowBreak m (page addr) e).entryPtr · (pgOffset addr))) := by
  unfold memPtr
  dsimp only
  cases he : (w.grow m (page addr)).memPt m (page addr) with
  | none => exact .inl rfl
  | some e =>
    dsimp only
    by_cases ht : type = .write
    · by_cases hwr : has e.flags pWrite
      · by_cases hc : has e.flags pCow
        · exact .inr (.inr ⟨e, rfl, ht, hwr, by simp [ht, hwr, hc]⟩)
        · exact .inr (.inl ⟨e, rfl, fun _ ↦ by simp [pWritable, hwr, hc],
            by simp [hwr, hc, he]⟩)
      · exact .inl (by simp [ht, hwr])
    · exact .inr (.inl ⟨e, rfl, fun h ↦ absurd h ht, by simp [ht, he]⟩)

theorem Wf.memPtr (hw : w.Wf) (m : ℕ) (addr : Addr) (type : Access) :
    (w.memPtr m addr type).1.Wf := by
  have hg := hw.grow' m (page_lt addr)
  obtain h | ⟨e, -, -, h⟩ | ⟨e, he, -, -, h⟩ := memPtr_cases w m addr type <;> rw [h]
  · exact hg
  · exact hg
  · exact hg.cowBreak e (hg.inRange he).1 (page_lt addr)

/-- The reference count of an address space is not one of a block. -/
theorem Wf.setRefcount (hw : w.Wf) (m n : ℕ) : (w.setRefcount m n).Wf := by
  refine hw.congr ?_ rfl rfl le_rfl le_rfl (fun _ _ ↦ rfl)
  funext m' p
  by_cases h : m' = m
  · subst h; simp [memPt, World.setRefcount]
  · simp [memPt, World.setRefcount, h]

theorem Wf.memRetain (hw : w.Wf) (m : ℕ) : (w.memRetain m).Wf := hw.setRefcount m _

theorem Wf.memRelease (hw : w.Wf) (m : ℕ) : (w.memRelease m).Wf := by
  have hw' := hw.setRefcount m ((w.mem m).refcount - 1)
  unfold World.memRelease
  dsimp only
  split
  · exact hw'.ptUnmap m 0 memPages true
  · exact hw'

theorem Wf.memPt_fresh (hw : w.Wf) (hm : w.nextMem ≤ m) (p : ℕ) : w.memPt m p = none := by
  cases h : w.memPt m p with
  | none => rfl
  | some e => exact absurd (hw.inRange h).1 (Nat.not_lt_of_le hm)

theorem Wf.memNew (hw : w.Wf) : w.memNew.2.Wf := by
  have hpt : w.memNew.2.memPt = w.memPt := by
    funext m p
    by_cases h : m = w.nextMem
    · subst h
      rw [hw.memPt_fresh le_rfl]
      simp [memPt, World.memNew, Mem.empty]
    · simp [memPt, World.memNew, h]
  have hentries (d : ℕ) : w.memNew.2.entries d = w.entries d := by
    unfold entries slot
    rw [hpt]
    refine refs_subset ?_ (fun i hi hni ↦ ?_)
    · exact Finset.product_subset_product_left (Finset.range_subset_range.mpr (Nat.le_succ _))
    · have hm : w.nextMem ≤ i.1 := by
        simp only [slots, Finset.mem_product, Finset.mem_range] at hi hni
        omega
      rw [hw.memPt_fresh hm]
      rfl
  refine ⟨fun he ↦ ?_, fun he ↦ ?_, fun he ↦ ?_, hw.dataLt, hw.blockLt, hw.blockLive,
    hw.blockInj, fun hx ↦ ?_⟩
  · obtain ⟨hm, hp⟩ := hw.inRange (hpt ▸ he)
    exact ⟨Nat.lt_succ_of_lt hm, hp⟩
  · exact hw.mapped (hpt ▸ he)
  · exact hw.aligned (hpt ▸ he)
  · rw [hentries]
    exact hw.refcount hx

theorem Wf.load (hw : w.Wf) (m : ℕ) (addr : Addr) : (w.load m addr).1.Wf := hw.memPtr m addr .read

theorem Wf.store (hw : w.Wf) (m : ℕ) (addr : Addr) (v : Byte) : (w.store m addr v).Wf := by
  unfold World.store
  dsimp only
  split
  · exact hw.memPtr m addr .write
  · exact (hw.memPtr m addr .write).hostWrite _ v

/-- Every operation keeps the sharing invariant. -/
theorem Wf.step {w' : World} {op : Op} (hw : w.Wf) (h : w.step op = some w') : w'.Wf := by
  unfold World.step at h
  split at h
  · rename_i hd
    cases h
    cases op with
    | new => exact hw.memNew
    | retain m => exact hw.memRetain m
    | release m => exact hw.memRelease m
    | mapNothing m start pages flags => exact hw.ptMapNothing m start pages flags hd.1.1 hd.2
    | map m start pages c flags => exact hw.ptMapFresh m start pages c flags hd.1.1 hd.2
    | unmap m start pages force => exact hw.ptUnmap m start pages force
    | setFlags mprotect m start pages flags => exact hw.ptSetFlags mprotect m start pages flags
    | copyOnWrite src srcStart dst dstStart pages =>
      exact hw.ptCopyOnWrite hd.2.2.1 hd.2.1.1 srcStart dstStart pages hd.2.2.2.2
    | load m addr => exact hw.load m addr
    | store m addr v => exact hw.store m addr v
  · cases h

/-- Every reachable state satisfies the sharing invariant. -/
theorem wf_of_reaches (h : Reaches step (fun _ _ ↦ True) init w) : w.Wf :=
  h.invariant init_wf (fun _ _ _ hw _ hs ↦ hw.step hs)

end World

end Isl.Emu.Memory
