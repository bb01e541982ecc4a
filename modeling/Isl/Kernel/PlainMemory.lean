import Isl.Emu.GuestMap
import Isl.Kernel.Brk

/-!
The address spaces as a program may think of them: every page is held by value, and a fork copies
the pages. `emu/memory.c` has them in blocks with a count of the entries that name them, and copies
a page when it is written.
-/

namespace Isl.Kernel.PlainMemory

open Isl.Lib Isl.Emu Isl.Emu.Memory

structure Page where
  flags : Flags
  byte : Fin pageSize → Byte

@[ext] structure Plain where
  nextMem : ℕ
  refcount : ℕ → ℕ
  entry : ℕ → ℕ → Option Page

def guestFlags (flags : Flags) : Flags := flags &&& ~~~(pCow ||| pCompiled)

def offset (addr : Addr) : Fin pageSize := ⟨pgOffset addr, World.pgOffset_lt addr⟩

namespace Plain

def init : Plain := ⟨0, fun _ ↦ 1, fun _ _ ↦ none⟩

def new (s : Plain) : Plain where
  nextMem := s.nextMem + 1
  refcount := Function.update s.refcount s.nextMem 1
  entry := Function.update s.entry s.nextMem fun _ ↦ none

def replace (s : Plain) (m start pages : ℕ) (f : ℕ → Option Page) : Plain :=
  { s with entry := Function.update s.entry m fun p ↦
      if start ≤ p ∧ p < start + pages then f p else s.entry m p }

/-- A host mapping has a size other than 0, as a 32-bit number. -/
def map (s : Plain) (m start pages : ℕ) (contents : ℤ → Byte) (flags : Flags) : Plain :=
  if pages * pageSize % 2 ^ 32 = 0 then s
  else s.replace m start pages fun p ↦
    some ⟨guestFlags flags, fun i ↦ contents ((p - start) * pageSize + i : ℕ)⟩

def mapNothing (s : Plain) (m start pages : ℕ) (flags : Flags) : Plain :=
  s.map m start pages (fun _ ↦ 0) (flags ||| pAnon)

def unmap (s : Plain) (m start pages : ℕ) (force : Bool) : Plain :=
  if !force && (List.range' start pages).any (fun p ↦ (s.entry m p).isNone) then s
  else s.replace m start pages fun _ ↦ none

def protect (s : Plain) (m start pages : ℕ) (flags : Flags) : Plain :=
  s.replace m start pages fun p ↦ (s.entry m p).map fun e ↦ { e with flags := guestFlags flags }

def copy (s : Plain) (src dst start pages : ℕ) : Plain :=
  s.replace dst start pages fun p ↦ (s.entry src p).or (s.entry dst p)

def growsTo (s : Plain) (m p : ℕ) : Bool :=
  match ((List.range' (p + 1) (memPages - (p + 1))).find? fun q ↦ (s.entry m q).isSome).bind
      (s.entry m) with
  | none => false
  | some e => has e.flags pGrowsdown

def grow (s : Plain) (m p : ℕ) : Plain :=
  if (s.entry m p).isNone && s.growsTo m p then s.mapNothing m p 1 (pWrite ||| pGrowsdown) else s

def load (s : Plain) (m : ℕ) (addr : Addr) : Option Byte :=
  ((s.grow m (page addr)).entry m (page addr)).map fun e ↦ e.byte (offset addr)

def store (s : Plain) (m : ℕ) (addr : Addr) (v : Byte) : Plain :=
  let s := s.grow m (page addr)
  match s.entry m (page addr) with
  | none => s
  | some e =>
    if has e.flags pWrite then
      s.replace m (page addr) 1 fun _ ↦
        some { e with byte := Function.update e.byte (offset addr) v }
    else s

def setRefcount (s : Plain) (m n : ℕ) : Plain :=
  { s with refcount := Function.update s.refcount m n }

def release (s : Plain) (m : ℕ) : Plain :=
  let s := s.setRefcount m (s.refcount m - 1)
  if s.refcount m = 0 then s.unmap m 0 memPages true else s

/-- What a call may make of the memories. The host may stop `pt_set_flags` on its way. -/
def Next (s : Plain) (op : Op) (s' : Plain) : Prop :=
  match op with
  | .new => s' = s.new
  | .retain m => s' = s.setRefcount m (s.refcount m + 1)
  | .release m => s' = s.release m
  | .mapNothing m start pages flags => s' = s.mapNothing m start pages flags
  | .map m start pages contents flags => s' = s.map m start pages contents flags
  | .unmap m start pages force => s' = s.unmap m start pages force
  | .setFlags _ m start pages flags => ∃ k ≤ pages, s' = s.protect m start k flags
  | .copyOnWrite src srcStart dst _ pages => s' = s.copy src dst srcStart pages
  | .load m addr => s' = s.grow m (page addr)
  | .store m addr v => s' = s.store m addr v

inductive Runs : Plain → List Op → Plain → Prop
  | nil (s : Plain) : Runs s [] s
  | cons {s t u : Plain} {op : Op} {ops : List Op} (hop : s.Next op t) (hops : Runs t ops u) :
      Runs s (op :: ops) u

end Plain

def pageOf (w : World) (e : PtEntry) : Page :=
  ⟨guestFlags e.flags, fun i ↦ w.byte (w.entryPtr e i).block (w.entryPtr e i).off⟩

def plain (w : World) : Plain :=
  ⟨w.nextMem, fun m ↦ (w.mem m).refcount, fun m p ↦ (w.memPt m p).map (pageOf w)⟩

/-- No page is named twice and writable. -/
def Separate (w : World) : Prop := ∀ a b, a ≠ b → w.Isolated a b

/-- A change of flags makes no page writable that another address space has too. -/
def Unshares (w : World) : Op → Prop
  | .setFlags mprotect m start pages flags =>
    ∀ other, other ≠ m → ¬w.exposes mprotect m other start pages flags
  | _ => True

variable {w w' : World} {m m' p p' a b start pages : ℕ} {e : PtEntry} {flags : Flags} {addr : Addr}

/-! Flags. -/

theorem guestFlags_cowFlags (flags : Flags) : guestFlags (World.cowFlags flags) = guestFlags flags := by
  have hmask : ~~~pCompiled &&& ~~~(pCow ||| pCompiled) = ~~~(pCow ||| pCompiled) := by decide
  have hcow : pCow &&& ~~~(pCow ||| pCompiled) = 0 := by decide
  rw [guestFlags, World.cowFlags, BitVec.and_assoc, hmask, BitVec.and_or_distrib_right, hcow]
  exact BitVec.or_zero

theorem guestFlags_uncow (flags : Flags) : guestFlags (flags &&& ~~~pCow) = guestFlags flags := by
  have hmask : ~~~pCow &&& ~~~(pCow ||| pCompiled) = ~~~(pCow ||| pCompiled) := by decide
  rw [guestFlags, BitVec.and_assoc, hmask, guestFlags]

theorem has_guestFlags {bit : Flags} (h : ~~~(pCow ||| pCompiled) &&& bit = bit) :
    has (guestFlags flags) bit = has flags bit := by
  rw [has, has, guestFlags, BitVec.and_assoc, h]

/-! What an operation leaves alone. -/

theorem entry_of_same (hpt : w'.memPt = w.memPt) (hdata : w'.data = w.data) (hbyte : w'.byte = w.byte) :
    (plain w').entry = (plain w).entry := by
  have hpage : pageOf w' = pageOf w := by
    funext e
    simp only [pageOf, World.entryPtr, hdata, hbyte]
  simp only [plain, hpt, hpage]

/-- The blocks that were there are, with the bytes they had. -/
structure Preserves (w w' : World) : Prop where
  blocks : World.KeepsBlocks w w'
  bytes : ∀ b, b < w.nextBlock → w'.byte b = w.byte b

theorem preserves_of_frame (hf : World.Frame a w.nextData w.nextBlock w w') : Preserves w w' :=
  ⟨hf.keepsBlocks, hf.byte⟩

/-- Two entries for one page, as far as a guest can tell. -/
structure Alike (e e' : PtEntry) : Prop where
  page : World.samePage e e'
  flags : guestFlags e'.flags = guestFlags e.flags

theorem Preserves.pageOf {e' : PtEntry} (h : Preserves w w') (hw : w.Wf) (hw' : w'.Wf)
    (he : w.memPt m p = some e) (he' : w'.memPt m' p' = some e') (halike : Alike e e') :
    pageOf w' e' = pageOf w e := by
  obtain ⟨z, hz⟩ := hw.mapped he
  obtain ⟨x, hx⟩ := hw'.mapped he'
  rw [← halike.page.1] at hx
  obtain ⟨y, hy, hyx⟩ := h.blocks e.data x (hw.dataLt hz) hx
  have hptr (i : ℕ) : w'.entryPtr e' i = w.entryPtr e i := by
    simp only [World.entryPtr, ← halike.page.1, ← halike.page.2, hx, hy, Option.map_some,
      Option.getD_some, hyx]
  have hbyte (i : Fin pageSize) : w'.byte (w'.entryPtr e' i).block (w'.entryPtr e' i).off =
      w.byte (w.entryPtr e i).block (w.entryPtr e i).off := by
    rw [hptr, h.bytes _ (hw.entryPtr_lt he _)]
  exact congrArg₂ Page.mk halike.flags (funext hbyte)

theorem Preserves.entry (h : Preserves w w') (hw : w.Wf) (hw' : w'.Wf)
    (hpt : Option.Rel Alike (w.memPt m p) (w'.memPt m' p')) :
    (plain w').entry m' p' = (plain w).entry m p := by
  simp only [plain]
  generalize ho : w.memPt m p = o at hpt ⊢
  generalize ho' : w'.memPt m' p' = o' at hpt ⊢
  cases hpt with
  | none => rfl
  | some halike => exact congrArg some (h.pageOf hw hw' ho ho' halike)

theorem Preserves.entry_of_eq (h : Preserves w w') (hw : w.Wf) (hw' : w'.Wf)
    (hpt : w'.memPt m p = w.memPt m p) : (plain w').entry m p = (plain w).entry m p := by
  apply h.entry hw hw'
  rw [hpt]
  cases w.memPt m p with
  | none => exact .none
  | some e => exact .some ⟨⟨rfl, rfl⟩, rfl⟩

theorem plain_replace {f : ℕ → Option Page} (hnext : w'.nextMem = w.nextMem)
    (href : ∀ m, (w'.mem m).refcount = (w.mem m).refcount)
    (hin : ∀ p, start ≤ p → p < start + pages → (plain w').entry a p = f p)
    (hout : ∀ m p, (m = a → ¬(start ≤ p ∧ p < start + pages)) →
      (plain w').entry m p = (plain w).entry m p) :
    plain w' = (plain w).replace a start pages f := by
  have hentry : (plain w').entry = ((plain w).replace a start pages f).entry := by
    funext m p
    by_cases hm : m = a
    · subst hm
      simp only [Plain.replace, Function.update_self]
      by_cases hp : start ≤ p ∧ p < start + pages
      · rw [if_pos hp, hin p hp.1 hp.2]
      · rw [if_neg hp, hout m p fun _ ↦ hp]
    · simp only [Plain.replace, Function.update_of_ne hm]
      exact hout m p fun h ↦ absurd h hm
  exact Plain.ext hnext (funext href) hentry

theorem plain_of_frame {f : ℕ → Option Page} (hf : World.Frame a w.nextData w.nextBlock w w')
    (hw : w.Wf) (hw' : w'.Wf) (href : (w'.mem a).refcount = (w.mem a).refcount)
    (hin : ∀ p, start ≤ p → p < start + pages → (plain w').entry a p = f p)
    (hout : ∀ p, ¬(start ≤ p ∧ p < start + pages) → w'.memPt a p = w.memPt a p) :
    plain w' = (plain w).replace a start pages f := by
  apply plain_replace hf.nextMem _ hin
  · intro m p hp
    apply (preserves_of_frame hf).entry_of_eq hw hw'
    by_cases hm : m = a
    · subst hm
      exact hout p (hp rfl)
    · exact hf.memPt hm p
  · intro m
    by_cases hm : m = a
    · subst hm
      exact href
    · rw [hf.other m hm]

theorem foldl_refcount {α : Type*} {f : World → α → World}
    (hf : ∀ w x, ((f w x).mem m).refcount = (w.mem m).refcount) (xs : List α) (w : World) :
    ((xs.foldl f w).mem m).refcount = (w.mem m).refcount := by
  induction xs generalizing w with
  | nil => rfl
  | cons x xs ih => exact (ih (f w x)).trans (hf w x)

theorem ptUnmapPage_refcount (w : World) (m' p m : ℕ) :
    ((w.ptUnmapPage m' p).mem m).refcount = (w.mem m).refcount := by
  have hone := World.unmapOne_refcount (w := w) (m := m') (p := p) m
  rwa [World.unmapOne, World.memChanged_refcount] at hone

theorem ptMapPage_refcount (m' d start : ℕ) (flags : Flags) (w : World) (p m : ℕ) :
    ((World.ptMapPage m' d start flags w p).mem m).refcount = (w.mem m).refcount := by
  rw [World.ptMapPage_eq, World.setPt_refcount, World.dataRetain_mem, World.evict]
  split
  · exact World.unmapOne_refcount m
  · rfl

theorem ptMap_refcount (w : World) (m' start pages : ℕ) (memory : Option ℕ) (flags : Flags) (m : ℕ) :
    ((w.ptMap m' start pages memory flags).1.mem m).refcount = (w.mem m).refcount := by
  cases memory with
  | none => rfl
  | some block => exact foldl_refcount (fun w p ↦ ptMapPage_refcount m' _ start flags w p m) _ _

/-! Mapping. -/

theorem plain_map (hw : w.Wf) (hm : m < w.nextMem) (hin : start + pages ≤ memPages)
    (c : ℤ → Byte) (flags : Flags) :
    plain (w.ptMapFresh m start pages c flags).1 = (plain w).map m start pages c flags := by
  by_cases hsize : pages * pageSize % 2 ^ 32 = 0
  · rw [Plain.map, if_pos hsize, World.ptMapFresh, World.mmap, if_pos hsize]
    rfl
  · rw [Plain.map, if_neg hsize]
    have hw' := hw.ptMapFresh m start pages c flags hm hin
    have hf : World.Frame m w.nextData w.nextBlock w (w.ptMapFresh m start pages c flags).1 :=
      World.ptMapFresh_frame le_rfl le_rfl start pages c flags
    refine plain_of_frame hf hw hw' ?_ ?_ ?_
    · rw [World.ptMapFresh, ptMap_refcount, World.mmap_mem]
    · intro p hlow hhigh
      have he : (w.ptMapFresh m start pages c flags).1.memPt m p =
          some ⟨w.nextData, (p - start) * pageSize, flags⟩ := by
        rw [World.memPt_ptMapFresh_of hsize, if_pos ⟨rfl, hlow, hhigh⟩]
      have hptr := hw.ptMapFresh_entryPtr hm hin hsize he rfl
      simp only [plain, he, Option.map_some, pageOf, hptr, World.ptMapFresh_byte hsize, Nat.cast_add]
    · intro p hp
      rw [World.memPt_ptMapFresh_of hsize, if_neg fun h ↦ hp h.2]

theorem plain_mapNothing (hw : w.Wf) (hm : m < w.nextMem) (hin : start + pages ≤ memPages)
    (flags : Flags) : plain (w.ptMapNothing m start pages flags).1 =
      (plain w).mapNothing m start pages flags := by
  rw [World.ptMapNothing, Plain.mapNothing]
  by_cases hpages : pages = 0
  · subst hpages
    have hsize : 0 * pageSize % 2 ^ 32 = 0 := by decide
    rw [if_pos rfl, Plain.map, if_pos hsize]
  · rw [if_neg hpages, plain_map hw hm hin]

theorem plain_growsTo (w : World) (m p : ℕ) : (plain w).growsTo m p = w.growsTo m p := by
  have hsome : (fun q ↦ ((plain w).entry m q).isSome) = fun q ↦ (w.memPt m q).isSome :=
    funext fun q ↦ Option.isSome_map
  rw [Plain.growsTo, World.growsTo, World.nextMapped, hsome]
  cases hnext : (List.range' (p + 1) (memPages - (p + 1))).find? fun q ↦ (w.memPt m q).isSome with
  | none => rfl
  | some q =>
    simp only [Option.bind_some, plain]
    cases w.memPt m q with
    | none => rfl
    | some e => exact has_guestFlags (by decide)

theorem plain_grow (hw : w.Wf) (hp : p < memPages) : plain (w.grow m p) = (plain w).grow m p := by
  have hnone : ((plain w).entry m p).isNone = (w.memPt m p).isNone := Option.isNone_map
  rw [World.grow, Plain.grow, hnone, plain_growsTo]
  cases hg : w.growsTo m p with
  | false => simp only [Bool.and_false, Bool.false_eq_true, if_false]
  | true =>
    split
    · exact plain_mapNothing hw (World.growsTo_nextMem hw hg) hp _
    · rfl

/-! Unmapping, and changing flags. -/

theorem plain_unmap (hw : w.Wf) (m start pages : ℕ) (force : Bool) :
    plain (w.ptUnmap m start pages force).1 = (plain w).unmap m start pages force := by
  have hany : (fun p ↦ ((plain w).entry m p).isNone) = fun p ↦ (w.memPt m p).isNone :=
    funext fun p ↦ Option.isNone_map
  rw [Plain.unmap, hany]
  by_cases hc : (!force && (List.range' start pages).any fun p ↦ (w.memPt m p).isNone) = true
  · rw [if_pos hc, World.ptUnmap, if_pos hc]
  · rw [if_neg hc]
    have heq : (w.ptUnmap m start pages force).1 =
        ((List.range' start pages).foldl (World.ptUnmapPage · m ·) w).memChanged m := by
      rw [World.ptUnmap, if_neg hc]
    have hpt (p : ℕ) : (w.ptUnmap m start pages force).1.memPt m p =
        if start ≤ p ∧ p < start + pages then none else w.memPt m p := by
      rw [heq, World.memChanged_memPt, Mmap.memPt_foldl_ptUnmapPage]
      simp only [true_and]
    have hf : World.Frame m w.nextData w.nextBlock w (w.ptUnmap m start pages force).1 :=
      World.ptUnmap_frame start pages force
    refine plain_of_frame hf hw (hw.ptUnmap m start pages force) ?_ ?_ ?_
    · rw [heq, World.memChanged_refcount]
      exact foldl_refcount (fun w p ↦ ptUnmapPage_refcount w m p m) _ _
    · intro p hlow hhigh
      simp only [plain, hpt, hlow, hhigh, and_self, if_true, Option.map_none]
    · intro p hp
      rw [hpt, if_neg hp]

theorem rewritten_range' (mprotect : Mprotect) (flags : Flags) (pages start : ℕ) :
    ∃ k ≤ pages, w.rewritten mprotect m flags (List.range' start pages) = List.range' start k := by
  induction pages generalizing start with
  | zero => exact ⟨0, le_rfl, rfl⟩
  | succ pages ih =>
    rw [List.range'_succ, World.rewritten]
    by_cases hr : w.refused mprotect m flags start = true
    · rw [if_pos hr]
      exact ⟨1, Nat.le_add_left 1 pages, rfl⟩
    · obtain ⟨k, hk, heq⟩ := ih (start + 1)
      rw [if_neg hr, heq, ← List.range'_succ]
      exact ⟨k + 1, Nat.succ_le_succ hk, rfl⟩

theorem setFlagsPages_range' (mprotect : Mprotect) (m start pages : ℕ) (flags : Flags) :
    ∃ k ≤ pages, w.setFlagsPages mprotect m start pages flags = List.range' start k := by
  rw [World.setFlagsPages]
  split
  · exact ⟨0, Nat.zero_le _, rfl⟩
  · exact rewritten_range' mprotect flags pages start

theorem ptSetFlags_refcount (mprotect : Mprotect) (m' start pages : ℕ) (flags : Flags) (m : ℕ) :
    ((w.ptSetFlags mprotect m' start pages flags).1.mem m).refcount = (w.mem m).refcount := by
  have hloop (ps : List ℕ) (w : World) :
      ((World.ptSetFlagsLoop mprotect m' flags w ps).1.mem m).refcount = (w.mem m).refcount := by
    induction ps generalizing w with
    | nil => exact World.memChanged_refcount m
    | cons p ps ih =>
      rw [World.ptSetFlagsLoop]
      split
      · rfl
      · dsimp only
        split
        · exact World.setPt_refcount _ m
        · rw [ih, World.setPt_refcount]
  rw [World.ptSetFlags]
  split
  · rfl
  · exact hloop _ w

theorem plain_protect (w : World) (mprotect : Mprotect) (m start pages : ℕ) (flags : Flags) :
    ∃ k ≤ pages, plain (w.ptSetFlags mprotect m start pages flags).1 =
      (plain w).protect m start k flags := by
  obtain ⟨k, hk, hpages⟩ := setFlagsPages_range' (w := w) mprotect m start pages flags
  have hsame := World.ptSetFlags_sameMemory (w := w) mprotect m start pages flags
  have hpage (f : Flags) (e : PtEntry) : pageOf (w.ptSetFlags mprotect m start pages flags).1
      { e with flags := f } = { pageOf w e with flags := guestFlags f } := by
    simp only [pageOf, World.entryPtr, hsame.data, hsame.byte]
  have hpt (m' p : ℕ) := World.memPt_ptSetFlags (w := w) mprotect m start pages flags m' p
  simp only [hpages, List.mem_range'_1] at hpt
  refine ⟨k, hk, plain_replace hsame.nextMem (ptSetFlags_refcount mprotect m start pages flags) ?_ ?_⟩
  · intro p hlow hhigh
    simp only [plain, hpt, hlow, hhigh, and_self, if_true, Option.map_map]
    exact congrArg (Option.map · (w.memPt m p)) (funext fun e ↦ hpage flags e)
  · intro m' p hp
    simp only [plain, hpt]
    rw [if_neg fun h ↦ hp h.1 h.2]
    exact congrArg (Option.map · (w.memPt m' p)) (funext fun e ↦ hpage e.flags e)

/-! Copying. -/

section

variable {src dst n : ℕ}

theorem memPt_cowPages_inPlace (m q : ℕ) :
    (w.cowPages src start dst start n).memPt m q =
      if (m = src ∨ m = dst) ∧ start ≤ q ∧ q < start + n ∧ (w.memPt src q).isSome then
        (w.memPt src q).map fun e ↦ { e with flags := World.cowFlags e.flags }
      else w.memPt m q := by
  induction n generalizing m q with
  | zero => rw [if_neg (by omega)]; rfl
  | succ n ih =>
    have hsrc : (w.cowPages src start dst start n).memPt src (start + n) = w.memPt src (start + n) := by
      rw [ih, if_neg (by omega)]
    have hiff : (m = src ∨ m = dst) ∧ start ≤ q ∧ q < start + (n + 1) ∧ (w.memPt src q).isSome ↔
        ((m = src ∨ m = dst) ∧ q = start + n ∧ (w.memPt src q).isSome) ∨
        ((m = src ∨ m = dst) ∧ start ≤ q ∧ q < start + n ∧ (w.memPt src q).isSome) := by
      constructor
      · rintro ⟨hm, hlow, hhigh, hsome⟩
        by_cases hq : q = start + n
        · exact .inl ⟨hm, hq, hsome⟩
        · exact .inr ⟨hm, hlow, by omega, hsome⟩
      · rintro (⟨hm, rfl, hsome⟩ | ⟨hm, hlow, hhigh, hsome⟩)
        · exact ⟨hm, by omega, by omega, hsome⟩
        · exact ⟨hm, hlow, by omega, hsome⟩
    rw [if_congr hiff rfl rfl, World.cowPages_succ]
    cases he : w.memPt src (start + n) with
    | none =>
      have hnot : ¬((m = src ∨ m = dst) ∧ q = start + n ∧ (w.memPt src q).isSome) := by
        rintro ⟨-, rfl, hsome⟩
        rw [he] at hsome
        cases hsome
      rw [World.cowPage_none (hsrc.trans he), ih, if_congr (or_iff_right hnot) rfl rfl]
    | some e =>
      rw [World.memPt_cowPage (hsrc.trans he), ih, ite_or]
      by_cases hq : q = start + n
      · subst hq
        simp only [and_true, he, Option.isSome_some, Option.map_some]
      · simp only [hq, and_false, false_and, if_false]

theorem cowPages_preserves (w : World) (src dst start n : ℕ) :
    Preserves w (w.cowPages src start dst start n) where
  blocks := World.cowPages_keepsBlocks src start dst start n
  bytes b _ := by
    induction n with
    | zero => rfl
    | succ n ih => rw [World.cowPages_succ, World.cowPage_byte, ih]

theorem plain_memChanged (w : World) (m : ℕ) : plain (w.memChanged m) = plain w :=
  Plain.ext rfl (funext fun m' ↦ World.memChanged_refcount m')
    (entry_of_same (World.memChanged_memPt w m) rfl rfl)

theorem plain_copy (hw : w.Wf) (hne : src ≠ dst) (hdst : dst < w.nextMem)
    (hin : start + n ≤ memPages) :
    plain (w.ptCopyOnWrite src start dst start n).1 = (plain w).copy src dst start n := by
  have hw' := hw.cowPages hne hdst start start n hin
  have hpres := cowPages_preserves w src dst start n
  have halike (e : PtEntry) : Alike e { e with flags := World.cowFlags e.flags } :=
    ⟨⟨rfl, rfl⟩, guestFlags_cowFlags e.flags⟩
  have hcopied {m q : ℕ} (hm : m = src ∨ m = dst) (hlow : start ≤ q) (hhigh : q < start + n)
      (hsome : (w.memPt src q).isSome) :
      (plain (w.cowPages src start dst start n)).entry m q = (plain w).entry src q := by
    apply hpres.entry hw hw'
    rw [memPt_cowPages_inPlace, if_pos ⟨hm, hlow, hhigh, hsome⟩]
    cases w.memPt src q with
    | none => exact .none
    | some e => exact .some (halike e)
  have hkept {m q : ℕ} (h : ¬((m = src ∨ m = dst) ∧ start ≤ q ∧ q < start + n ∧
      (w.memPt src q).isSome)) :
      (plain (w.cowPages src start dst start n)).entry m q = (plain w).entry m q :=
    hpres.entry_of_eq hw hw' ((memPt_cowPages_inPlace m q).trans (if_neg h))
  rw [World.ptCopyOnWrite_eq, plain_memChanged, plain_memChanged]
  refine plain_replace (World.cowPages_nextMem src start dst start n) ?_ ?_ ?_
  · intro m
    exact foldl_refcount (fun w i ↦ World.cowPage_refcount _ _ m) _ w
  · intro q hlow hhigh
    cases he : w.memPt src q with
    | none =>
      have hnone : (plain w).entry src q = none := by simp only [plain, he, Option.map_none]
      rw [hkept (by simp [he]), hnone, Option.none_or]
    | some e =>
      have hsome : ((plain w).entry src q).isSome := by simp only [plain, he, Option.map_some, Option.isSome_some]
      rw [hcopied (.inr rfl) hlow hhigh (Option.isSome_of_eq_some he), Option.or_of_isSome hsome]
  · intro m q hm
    by_cases h : (m = src ∨ m = dst) ∧ start ≤ q ∧ q < start + n ∧ (w.memPt src q).isSome
    · obtain ⟨rfl | rfl, hlow, hhigh, hsome⟩ := h
      · exact hcopied (.inl rfl) hlow hhigh hsome
      · exact absurd ⟨hlow, hhigh⟩ (hm rfl)
    · exact hkept h

end

/-! No page is shared and writable. -/

theorem separate_frame {n : ℕ} (hs : Separate w) (hw : w.Wf) (hf : World.Frame a w.nextData n w w') :
    Separate w' := by
  intro x y hxy
  by_cases hx : x = a
  · subst hx
    exact (hs x y hxy).frame hw hxy hf
  · by_cases hy : y = a
    · subst hy
      exact ((hs y x hxy.symm).frame hw hxy.symm hf).symm
    · intro p q e f he hf'
      rw [hf.memPt hx] at he
      rw [hf.memPt hy] at hf'
      exact hs x y hxy p q e f he hf'

theorem separate_protect (hs : Separate w) (hw : w.Wf) {mprotect : Mprotect} {flags : Flags}
    (hok : Unshares w (.setFlags mprotect m start pages flags)) :
    Separate (w.ptSetFlags mprotect m start pages flags).1 := by
  intro x y hxy
  by_cases hx : x = m
  · subst hx
    exact (hs x y hxy).setFlags hw hxy (hok y hxy.symm)
  · by_cases hy : y = m
    · subst hy
      exact ((hs y x hxy.symm).setFlags hw hxy.symm (hok x hx)).symm
    · intro p q e f he hf
      rw [World.memPt_ptSetFlags, if_neg fun h ↦ hx h.1] at he
      rw [World.memPt_ptSetFlags, if_neg fun h ↦ hy h.1] at hf
      exact hs x y hxy p q e f he hf

/-- Another entry for a page that is copied is in another address space, and not writable. -/
theorem separate_cowPage {src dst : ℕ} (hs : Separate w) (hu : w.Unaliased) (p : ℕ) :
    Separate (World.cowPage src dst w p p) := by
  cases he : w.memPt src p with
  | none => rwa [World.cowPage_none he]
  | some e =>
    have hother {y r : ℕ} {f : PtEntry} (hf : w.memPt y r = some f) (hsame : World.samePage e f)
        (hout : ¬((y = src ∨ y = dst) ∧ r = p)) : pWritable f.flags = false := by
      by_cases hy : y = src
      · subst hy
        have hpage := hu _ _ _ _ _ _ he hf hsame
        exact absurd ⟨.inl rfl, hpage.symm⟩ hout
      · exact (hs src y (Ne.symm hy) p r e f he hf hsame).2
    intro x y hxy q r f g hf hg hsame
    rw [World.memPt_cowPage he] at hf hg
    by_cases hx : (x = src ∨ x = dst) ∧ q = p
    · rw [if_pos hx] at hf
      cases hf
      refine ⟨World.pWritable_cowFlags _, ?_⟩
      by_cases hy : (y = src ∨ y = dst) ∧ r = p
      · rw [if_pos hy] at hg
        cases hg
        exact World.pWritable_cowFlags _
      · rw [if_neg hy] at hg
        exact hother hg hsame hy
    · rw [if_neg hx] at hf
      by_cases hy : (y = src ∨ y = dst) ∧ r = p
      · rw [if_pos hy] at hg
        cases hg
        exact ⟨hother hf ⟨hsame.1.symm, hsame.2.symm⟩ hx, World.pWritable_cowFlags _⟩
      · rw [if_neg hy] at hg
        exact hs x y hxy q r f g hf hg hsame

theorem separate_copy {src dst : ℕ} (hs : Separate w) (hw : w.Wf) (hu : w.Unaliased) (hne : src ≠ dst)
    (hdst : dst < w.nextMem) (n : ℕ) (hin : start + n ≤ memPages) :
    Separate (w.ptCopyOnWrite src start dst start n).1 := by
  have hpages : Separate (w.cowPages src start dst start n) := by
    induction n with
    | zero => exact hs
    | succ n ih =>
      have hlt : start + n ≤ memPages := by omega
      have hprefix := hu.ptCopyOnWrite hw hne hdst start n hlt
      have hua : (w.cowPages src start dst start n).Unaliased := by
        intro m p e m' p' f he hf
        rw [World.ptCopyOnWrite_eq] at hprefix
        refine hprefix m p e m' p' f ?_ ?_
        · rwa [World.memChanged_memPt, World.memChanged_memPt]
        · rwa [World.memChanged_memPt, World.memChanged_memPt]
      rw [World.cowPages_succ]
      exact separate_cowPage (ih hlt) hua _
  intro x y hxy p q e f he hf
  rw [World.ptCopyOnWrite_eq, World.memChanged_memPt, World.memChanged_memPt] at he hf
  exact hpages x y hxy p q e f he hf

/-! Access. -/

theorem plain_cowBreak (hw : w.Wf) (he : w.memPt m p = some e) : plain (w.cowBreak m p e) = plain w := by
  have hin := hw.inRange he
  have hw' := hw.cowBreak e hin.1 hin.2
  have hf : World.Frame m w.nextData w.nextBlock w (w.cowBreak m p e) := World.cowBreak_frame le_rfl le_rfl p e
  have hentry : (plain (w.cowBreak m p e)).entry = (plain w).entry := by
    funext m' q
    by_cases hq : m' = m ∧ q = p
    · obtain ⟨rfl, rfl⟩ := hq
      obtain ⟨f, hfe, hptr⟩ := hw.cowBreak_entry m' q e
      have hflags : f.flags = e.flags &&& ~~~pCow := by
        have hself := World.memPt_cowBreak w m' q e m' q
        rw [hfe, if_pos ⟨rfl, rfl⟩] at hself
        cases hself
        rfl
      have hbyte (i : Fin pageSize) := cowBreak_byte hw he i.isLt
      simp only [plain, hfe, he, Option.map_some, pageOf, hptr, hbyte, hflags, guestFlags_uncow]
    · apply (preserves_of_frame hf).entry_of_eq hw hw'
      rw [World.memPt_cowBreak, if_neg hq]
  refine Plain.ext hf.nextMem (funext fun m' ↦ ?_) hentry
  rw [World.cowBreak]
  exact (ptMap_refcount _ m p 1 _ _ m').trans rfl

theorem plain_memPtr (hw : w.Wf) (m : ℕ) (addr : Addr) (type : Access) :
    plain (w.memPtr m addr type).1 = (plain w).grow m (page addr) := by
  have hgrow := plain_grow (m := m) hw (World.page_lt addr)
  obtain h | ⟨e, -, -, h⟩ | ⟨e, he, -, -, h⟩ := World.memPtr_cases w m addr type <;> rw [h]
  · exact hgrow
  · exact hgrow
  · exact (plain_cowBreak (hw.grow' m (World.page_lt addr)) he).trans hgrow

/-- An access is refused only where the page is not writable. -/
theorem memPtr_refused (hw : w.Wf) (hnone : (w.memPtr m addr .write).2 = none)
    (he : (w.memPtr m addr .write).1.memPt m (page addr) = some e) : has e.flags pWrite = false := by
  rw [Bool.eq_false_iff]
  intro hwrite
  have hperm : (w.view m).perm (page addr) = .readWrite := by
    rw [← hw.view_memPtr m addr .write m, World.view_perm_of he]
    exact World.permOf_eq_readWrite.mpr hwrite
  have hmapped : (w.view m).perm (page addr) ≠ .unmapped := by
    rw [hperm]
    simp
  have hsome := (hw.memPtr_isSome m addr .write).mpr ⟨hmapped, fun _ ↦ hperm⟩
  rw [hnone] at hsome
  cases hsome

theorem pgOffset_ofNat {i : ℕ} (hi : i < pageSize) : pgOffset (BitVec.ofNat 32 i) = i := by
  rw [pgOffset, BitVec.toNat_ofNat]
  unfold pageSize at *
  omega

/-- A byte written to a page that is writable is written to no other page. -/
theorem plain_hostWrite (hw : w.Wf) (hu : w.Unaliased) (hs : Separate w)
    (he : w.memPt m (page addr) = some e) (hwrite : pWritable e.flags) (v : Byte) :
    plain (w.hostWrite (w.entryPtr e (pgOffset addr)) v) = (plain w).replace m (page addr) 1 fun _ ↦
      some { pageOf w e with byte := Function.update (pageOf w e).byte (offset addr) v } := by
  refine plain_replace rfl (fun _ ↦ rfl) ?_ ?_
  · intro p hlow hhigh
    obtain rfl : p = page addr := by omega
    have hbyte (i : Fin pageSize) :
        (w.hostWrite (w.entryPtr e (pgOffset addr)) v).byte (w.entryPtr e i).block (w.entryPtr e i).off =
          Function.update (pageOf w e).byte (offset addr) v i := by
      by_cases hi : i = offset addr
      · subst hi
        rw [Function.update_self]
        simp [World.hostWrite, World.entryPtr, offset]
      · rw [Function.update_of_ne hi]
        apply World.hostWrite_byte_of_ne
        intro heq
        have hoff := congrArg Ptr.off heq
        simp only [World.entryPtr, add_right_inj, Nat.cast_inj] at hoff
        exact hi (Fin.ext hoff)
    have he' : (w.hostWrite (w.entryPtr e (pgOffset addr)) v).memPt m (page addr) = some e := he
    simp only [plain, he', Option.map_some]
    exact congrArg some (congrArg (Page.mk _) (funext hbyte))
  · intro m' q hq
    have hpt : (w.hostWrite (w.entryPtr e (pgOffset addr)) v).memPt m' q = w.memPt m' q := rfl
    simp only [plain, hpt]
    cases hf : w.memPt m' q with
    | none => rfl
    | some f =>
      have hbyte (i : Fin pageSize) :
          (w.hostWrite (w.entryPtr e (pgOffset addr)) v).byte (w.entryPtr f i).block (w.entryPtr f i).off =
            w.byte (w.entryPtr f i).block (w.entryPtr f i).off := by
        apply World.hostWrite_byte_of_ne
        intro heq
        have hptr : w.entryPtr f (pgOffset (BitVec.ofNat 32 i)) = w.entryPtr e (pgOffset addr) := by
          rw [pgOffset_ofNat i.isLt, heq]
        have hsame := hw.samePage_of_entryPtr hf he hptr
        by_cases hm : m' = m
        · have hpage := hu _ _ _ _ _ _ hf he hsame
          exact hq hm ⟨hpage.ge, by omega⟩
        · have hnot := (hs m' m hm q (page addr) f e hf he hsame).2
          rw [hwrite] at hnot
          cases hnot
      exact congrArg some (congrArg (Page.mk _) (funext hbyte))

theorem plain_store (hw : w.Wf) (hu : w.Unaliased) (hs : Separate w) (m : ℕ) (addr : Addr) (v : Byte) :
    plain (w.store m addr v) = (plain w).store m addr v := by
  have hplain := plain_memPtr hw m addr .write
  have hw' := hw.memPtr m addr .write
  rw [World.store, Plain.store, ← hplain]
  cases hq : (w.memPtr m addr .write).2 with
  | none =>
    dsimp only
    cases he : (w.memPtr m addr .write).1.memPt m (page addr) with
    | none => simp only [plain, he, Option.map_none]
    | some e =>
      have hflags : has (guestFlags e.flags) pWrite = false :=
        (has_guestFlags (by decide)).trans (memPtr_refused hw hq he)
      simp only [plain, he, Option.map_some, pageOf, hflags, Bool.false_eq_true, if_false]
  | some q =>
    obtain ⟨e, he, hwrite, rfl⟩ := World.memPtr_entry hq
    have hwritable := hwrite rfl
    have hflags : has (guestFlags e.flags) pWrite = true := by
      simp only [pWritable, Bool.and_eq_true] at hwritable
      exact (has_guestFlags (by decide)).trans hwritable.1
    have hentry : (plain (w.memPtr m addr .write).1).entry m (page addr) =
        some (pageOf (w.memPtr m addr .write).1 e) := by
      simp only [plain, he, Option.map_some]
    dsimp only
    rw [plain_hostWrite hw' (hu.memPtr hw m addr .write) (separate_frame hs hw (World.memPtr_frame addr .write))
      he hwritable, hentry]
    simp only [pageOf, hflags, if_true]

/-! Runs. -/

theorem plain_new (hw : w.Wf) : plain w.memNew.2 = (plain w).new := by
  have hentry : (plain w.memNew.2).entry = (plain w).new.entry := by
    funext m p
    rw [entry_of_same (World.memNew_memPt hw) rfl rfl, Plain.new]
    by_cases hm : m = w.nextMem
    · subst hm
      have hfresh := hw.memPt_fresh le_rfl p
      simp only [plain, hfresh, Option.map_none, Function.update_self]
    · exact (congrFun (Function.update_of_ne hm _ _) p).symm
  refine Plain.ext rfl ?_ hentry
  funext m
  by_cases hm : m = w.nextMem
  · subst hm
    simp [plain, World.memNew, Plain.new, Mem.empty]
  · simp [plain, World.memNew, Plain.new, hm]

theorem plain_setRefcount (w : World) (m n : ℕ) :
    plain (w.setRefcount m n) = (plain w).setRefcount m n := by
  have hpt : (w.setRefcount m n).memPt = w.memPt := by
    funext m' p
    by_cases hm : m' = m
    · subst hm
      simp [World.memPt, World.setRefcount]
    · simp [World.memPt, World.setRefcount, hm]
  refine Plain.ext rfl (funext fun m' ↦ ?_) (entry_of_same hpt rfl rfl)
  by_cases hm : m' = m
  · subst hm
    simp [plain, World.setRefcount, Plain.setRefcount]
  · simp [plain, World.setRefcount, Plain.setRefcount, hm]

theorem plain_release (hw : w.Wf) (m : ℕ) : plain (w.memRelease m) = (plain w).release m := by
  have hset : (plain w).setRefcount m ((plain w).refcount m - 1) =
      plain (w.setRefcount m ((w.mem m).refcount - 1)) := (plain_setRefcount w m _).symm
  have hcount (w : World) : (plain w).refcount m = (w.mem m).refcount := rfl
  rw [World.memRelease, Plain.release, hset, hcount]
  split
  · exact plain_unmap (hw.setRefcount m _) m 0 memPages true
  · rfl

structure Sound (w : World) : Prop where
  wf : w.Wf
  unaliased : w.Unaliased
  separate : Separate w

theorem sound_init : Sound World.init where
  wf := World.init_wf
  unaliased := World.init_unaliased
  separate a b hab p q e f he := by cases he

theorem Sound.step {op : Op} (h : Sound w) (hin : op.InPlace) (hok : Unshares w op)
    (hstep : w.step op = some w') : Sound w' ∧ (plain w).Next op (plain w') := by
  obtain ⟨hw, hu, hs⟩ := h
  suffices hgoal : Separate w' ∧ (plain w).Next op (plain w') from
    ⟨⟨hw.step hstep, hu.step hw hin hstep, hgoal.1⟩, hgoal.2⟩
  rw [World.step] at hstep
  split at hstep
  · rename_i hd
    cases hstep
    cases op with
    | new =>
      refine ⟨?_, plain_new hw⟩
      intro a b hab p q e f he hf
      rw [World.apply, World.memNew_memPt hw] at he hf
      exact hs a b hab p q e f he hf
    | retain m => exact ⟨separate_frame (n := 0) hs hw (World.setRefcount_frame m _), plain_setRefcount w m _⟩
    | release m => exact ⟨separate_frame (n := 0) hs hw World.memRelease_frame, plain_release hw m⟩
    | mapNothing m start pages flags =>
      exact ⟨separate_frame hs hw (World.ptMapNothing_frame le_rfl (Nat.zero_le _) start pages flags),
        plain_mapNothing hw hd.1.1 hd.2 flags⟩
    | map m start pages contents flags =>
      exact ⟨separate_frame hs hw (World.ptMapFresh_frame le_rfl (Nat.zero_le _) start pages contents flags),
        plain_map hw hd.1.1 hd.2 contents flags⟩
    | unmap m start pages force =>
      exact ⟨separate_frame (n := 0) hs hw (World.ptUnmap_frame start pages force),
        plain_unmap hw m start pages force⟩
    | setFlags mprotect m start pages flags =>
      exact ⟨separate_protect hs hw hok, plain_protect w mprotect m start pages flags⟩
    | copyOnWrite src srcStart dst dstStart pages =>
      obtain rfl : srcStart = dstStart := hin
      obtain ⟨-, hdst, hne, hrange, -⟩ := hd
      exact ⟨separate_copy hs hw hu hne hdst.1 pages hrange, plain_copy hw hne hdst.1 hrange⟩
    | load m addr =>
      exact ⟨separate_frame hs hw (World.memPtr_frame addr .read), plain_memPtr hw m addr .read⟩
    | store m addr v =>
      exact ⟨separate_frame hs hw (World.store_frame addr v), plain_store hw hu hs m addr v⟩
  · cases hstep

theorem Sound.runs {ops : List Op} (h : Sound w)
    (hok : Run.Guarded World.step (fun w op ↦ op.InPlace ∧ Unshares w op) w ops)
    (hrun : Run.exec World.step w ops = some w') : Sound w' ∧ (plain w).Runs ops (plain w') := by
  induction ops generalizing w with
  | nil =>
    cases hrun
    exact ⟨h, .nil _⟩
  | cons op ops ih =>
    obtain ⟨u, hstep, hrest⟩ := Option.bind_eq_some_iff.mp hrun
    obtain ⟨hsound, hnext⟩ := h.step hok.1.1 hok.1.2 hstep
    obtain ⟨hsound', hruns⟩ := ih hsound (hok.2 u hstep) hrest
    exact ⟨hsound', .cons hnext hruns⟩

theorem plain_load (hw : w.Wf) (m : ℕ) (addr : Addr) : (w.load m addr).2 = (plain w).load m addr := by
  have hgrow := plain_grow (m := m) hw (World.page_lt addr)
  have hw' := hw.grow' m (World.page_lt addr)
  rw [World.load, World.memPtr_read, Plain.load, ← hgrow]
  dsimp only
  cases he : (w.grow m (page addr)).memPt m (page addr) with
  | none => simp only [plain, he, Option.map_none, Option.bind_none]
  | some e =>
    have hlive := hw'.live_entryPtr he (pgOffset addr)
    simp only [plain, he, Option.map_some, Option.bind_some, World.hostRead, hlive, if_true, pageOf, offset]

/-- A page that is written by the parent, forked, and written by the child. -/
def forked : List Op :=
  [.new, .mapNothing 0 16 1 (pRead ||| pWrite), .store 0 0x10000 7, .new, .copyOnWrite 0 16 1 16 1,
    .store 1 0x10000 9]

end Isl.Kernel.PlainMemory
