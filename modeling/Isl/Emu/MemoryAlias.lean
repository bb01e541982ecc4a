import Isl.Emu.MemoryChanges
import Isl.Emu.MemoryRefs

/-!
Page numbers that share memory. A fork copies every page to its own number, so
two entries for one page of one block have the same page number.
-/

namespace Isl.Emu.Memory

/-- A copy keeps the page numbers, as the one in `copy_task` does. -/
def Op.InPlace : Op → Prop
  | .copyOnWrite _ srcStart _ dstStart _ => srcStart = dstStart
  | _ => True

namespace World

open Isl.Lib.Run

variable {w w' : World} {m m' p p' : ℕ}

def Unaliased (w : World) : Prop :=
  ∀ m p e m' p' f, w.memPt m p = some e → w.memPt m' p' = some f → samePage e f → p = p'

theorem init_unaliased : init.Unaliased := by
  intro m p e m' p' f he
  cases he

/-- The entries are old ones at their page numbers, or all map the next block
from one page on. -/
theorem Unaliased.of_entries (h : w.Unaliased) (hw : w.Wf) (start : ℕ)
    (hentry : ∀ m p e, w'.memPt m p = some e →
      (∃ m₀ f, w.memPt m₀ p = some f ∧ samePage f e) ∨
        (e.data = w.nextData ∧ start ≤ p ∧ e.offset = (p - start) * pageSize)) :
    w'.Unaliased := by
  have hold {m p : ℕ} {f : PtEntry} (hf : w.memPt m p = some f) : f.data < w.nextData := by
    obtain ⟨x, hx⟩ := hw.mapped hf
    exact hw.dataLt hx
  intro m p e m' p' e' he he' hs
  obtain ⟨m₀, f, hf, hfe⟩ | ⟨hd, hp, ho⟩ := hentry m p e he
  · obtain ⟨m₀', f', hf', hfe'⟩ | ⟨hd', -, -⟩ := hentry m' p' e' he'
    · refine h m₀ p f m₀' p' f' hf hf' ⟨?_, ?_⟩
      · rw [hfe.1, hs.1, hfe'.1]
      · rw [hfe.2, hs.2, hfe'.2]
    · have hlt := hold hf
      rw [hfe.1, hs.1, hd'] at hlt
      exact absurd hlt (lt_irrefl _)
  · obtain ⟨m₀', f', hf', hfe'⟩ | ⟨-, hp', ho'⟩ := hentry m' p' e' he'
    · have hlt := hold hf'
      rw [hfe'.1, ← hs.1, hd] at hlt
      exact absurd hlt (lt_irrefl _)
    · have heq := ho.symm.trans (hs.2.trans ho')
      have hsub := Nat.eq_of_mul_eq_mul_right (by decide) heq
      omega

theorem Unaliased.of_old (h : w.Unaliased) (hw : w.Wf)
    (hentry : ∀ m p e, w'.memPt m p = some e → ∃ m₀ f, w.memPt m₀ p = some f ∧ samePage f e) :
    w'.Unaliased :=
  h.of_entries hw 0 fun m p e he ↦ .inl (hentry m p e he)

/-- A step that maps nothing new. -/
theorem Unaliased.unmap (h : w.Unaliased) (hw : w.Wf) (hf : ∀ n, Frame m n 0 w w') :
    w'.Unaliased := by
  refine h.of_old hw fun m' p e he ↦ ⟨m', e, ?_, rfl, rfl⟩
  by_cases hm : m' = m
  · subst hm
    refine ((hf (e.data + 1)).own p e he).resolve_right (Nat.not_le_of_lt ?_)
    exact Nat.lt_succ_self _
  · rwa [(hf 0).memPt hm] at he

theorem Unaliased.ptMapFresh (h : w.Unaliased) (hw : w.Wf) (m start pages : ℕ)
    (contents : ℤ → Byte) (flags : Flags) :
    (w.ptMapFresh m start pages contents flags).1.Unaliased := by
  unfold World.ptMapFresh World.mmap
  dsimp only
  split
  · exact h
  · refine h.of_entries hw start fun m' p e he ↦ ?_
    rw [memPt_ptMap] at he
    split at he
    · rename_i hin
      cases he
      exact .inr ⟨rfl, hin.2.1, rfl⟩
    · exact .inl ⟨m', e, he, rfl, rfl⟩

theorem Unaliased.ptMapNothing (h : w.Unaliased) (hw : w.Wf) (m start pages : ℕ) (flags : Flags) :
    (w.ptMapNothing m start pages flags).1.Unaliased := by
  unfold World.ptMapNothing
  split
  · exact h
  · exact h.ptMapFresh hw m start pages _ _

theorem Unaliased.cowBreak (h : w.Unaliased) (hw : w.Wf) (m p : ℕ) (e : PtEntry) :
    (w.cowBreak m p e).Unaliased := by
  refine h.of_entries hw p fun m' q f hf ↦ ?_
  rw [memPt_cowBreak] at hf
  split at hf
  · rename_i hin
    cases hf
    exact .inr ⟨rfl, hin.2.ge, by simp [hin.2]⟩
  · exact .inl ⟨m', f, hf, rfl, rfl⟩

theorem Unaliased.grow (h : w.Unaliased) (hw : w.Wf) (m p : ℕ) : (w.grow m p).Unaliased := by
  unfold World.grow
  split
  · exact h.ptMapNothing hw m p 1 _
  · exact h

theorem Unaliased.memPtr (h : w.Unaliased) (hw : w.Wf) (m : ℕ) (addr : Addr) (type : Access) :
    (w.memPtr m addr type).1.Unaliased := by
  have hg := h.grow hw m (page addr)
  obtain hr | ⟨e, -, -, hr⟩ | ⟨e, -, -, -, hr⟩ := memPtr_cases w m addr type <;> rw [hr]
  · exact hg
  · exact hg
  · exact hg.cowBreak (hw.grow' m (page_lt addr)) m (page addr) e

theorem Unaliased.hostWrite (h : w.Unaliased) (q : Ptr) (v : Byte) : (w.hostWrite q v).Unaliased := h

theorem Unaliased.ptSetFlags (h : w.Unaliased) (hw : w.Wf) (mprotect : Mprotect)
    (m start pages : ℕ) (flags : Flags) :
    (w.ptSetFlags mprotect m start pages flags).1.Unaliased := by
  refine h.of_old hw fun m' p e he ↦ ?_
  rw [memPt_ptSetFlags] at he
  split at he
  · obtain ⟨f, hf, rfl⟩ := Option.map_eq_some_iff.mp he
    exact ⟨m', f, hf, rfl, rfl⟩
  · exact ⟨m', e, he, rfl, rfl⟩

theorem Unaliased.cowPage {src dst : ℕ} (h : w.Unaliased) (hw : w.Wf) (p : ℕ) :
    (World.cowPage src dst w p p).Unaliased := by
  cases he : w.memPt src p with
  | none =>
    rw [cowPage_none he]
    exact h
  | some e =>
    refine h.of_old hw fun m q f hf ↦ ?_
    rw [memPt_cowPage he] at hf
    split at hf
    · rename_i hin
      cases hf
      exact ⟨src, e, hin.2 ▸ he, rfl, rfl⟩
    · exact ⟨m, f, hf, rfl, rfl⟩

theorem Unaliased.ptCopyOnWrite {src dst : ℕ} (h : w.Unaliased) (hw : w.Wf) (hne : src ≠ dst)
    (hdst : dst < w.nextMem) (start pages : ℕ) (hn : start + pages ≤ memPages) :
    (w.ptCopyOnWrite src start dst start pages).1.Unaliased := by
  have hpages : (w.cowPages src start dst start pages).Unaliased := by
    induction pages with
    | zero => exact h
    | succ n ih =>
      rw [cowPages_succ]
      exact (ih (by omega)).cowPage (hw.cowPages hne hdst start start n (by omega)) _
  intro m p e m' p' f he hf
  rw [ptCopyOnWrite_eq, memChanged_memPt, memChanged_memPt] at he hf
  exact hpages m p e m' p' f he hf

/-- One call keeps the pages unaliased. -/
theorem Unaliased.step {op : Op} (h : w.Unaliased) (hw : w.Wf) (hop : op.InPlace)
    (hs : w.step op = some w') : w'.Unaliased := by
  unfold World.step at hs
  split at hs
  · rename_i hd
    cases hs
    cases op with
    | new =>
      refine h.of_old hw fun m p e he ↦ ⟨m, e, ?_, rfl, rfl⟩
      exact (congrFun (congrFun (memNew_memPt hw) m) p).symm.trans he
    | retain m => exact h.unmap hw fun n ↦ setRefcount_frame m _
    | release m => exact h.unmap hw fun n ↦ memRelease_frame
    | mapNothing m start pages flags => exact h.ptMapNothing hw m start pages flags
    | map m start pages contents flags => exact h.ptMapFresh hw m start pages contents flags
    | unmap m start pages force => exact h.unmap hw fun n ↦ ptUnmap_frame start pages force
    | setFlags mprotect m start pages flags => exact h.ptSetFlags hw mprotect m start pages flags
    | copyOnWrite src srcStart dst dstStart pages =>
      obtain rfl : srcStart = dstStart := hop
      obtain ⟨-, hdst, hne, hn, -⟩ := hd
      exact h.ptCopyOnWrite hw hne hdst.1 srcStart pages hn
    | load m addr => exact h.memPtr hw m addr .read
    | store m addr v =>
      have hp := h.memPtr hw m addr .write
      simp only [World.apply, World.store]
      split
      · exact hp
      · exact hp.hostWrite _ v
  · cases hs

theorem unaliased_of_reaches (h : Reaches step (fun _ op ↦ op.InPlace) init w) : w.Unaliased := by
  have hinv : w.Wf ∧ w.Unaliased :=
    h.invariant (P := fun w ↦ w.Wf ∧ w.Unaliased) ⟨init_wf, init_unaliased⟩
      fun t u op ht hop hs ↦ ⟨ht.1.step hs, ht.2.step ht.1 hop hs⟩
  exact hinv.2

end World

end Isl.Emu.Memory
