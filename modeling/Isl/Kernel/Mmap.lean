import Isl.Lib.Prog
import Isl.Emu.MemoryInv

/-!
The memory calls of `kernel/mmap.c`, as programs over the page table functions
of `emu/memory.c`. Addresses and lengths are numbers of the guest, and page
numbers and counts are 32-bit numbers.
-/

namespace Isl.Kernel.Mmap

open Isl.Lib Isl.Emu Isl.Emu.Memory

abbrev Dword := BitVec 32

def eperm : ℤ := -1
def efault : ℤ := -14
def ebadf : ℤ := -9
def enodev : ℤ := -19

inductive PtOp
  | memPt (page : ℕ)
  | findHole (size : ℕ)
  | isHole (start pages : ℕ)
  | mapNothing (start pages : ℕ) (flags : Flags)
  | map (start pages : ℕ) (contents : Option (ℤ → Byte)) (flags : Flags)
  | unmap (start pages : ℕ) (force : Bool)
  | setFlags (start pages : ℕ) (flags : Flags)

def PtOp.Reply : PtOp → Type
  | .memPt _ => Option PtEntry
  | .findHole _ => Option ℕ
  | .isHole _ _ => Bool
  | .mapNothing _ _ _ | .map _ _ _ _ | .unmap _ _ _ | .setFlags _ _ _ => ℤ

/-- What the host does: with `noMemory` every mapping fails. -/
structure Host where
  mprotect : Mprotect
  noMemory : Bool

/-- The pages of a loop up to `start + pages`, a 32-bit sum. -/
def pageLoop (start pages : ℕ) : List ℕ := List.range' start ((start + pages) % 2 ^ 32 - start)

/-- The pages that `pt_find_hole` looks at, in its order. -/
@[irreducible] def holePages : List ℕ := (List.range' 0x40001 (0xf7ffd - 0x40000)).reverse

/-- The loop of `pt_find_hole`, with the end of the hole that it is in. -/
def findHoleIn (w : World) (m size : ℕ) : List ℕ → Option ℕ → Option ℕ
  | [], _ => none
  | page :: pages, hole =>
    if (w.memPt m page).isSome then findHoleIn w m size pages none
    else
      let holeEnd := hole.getD (page + 1)
      if holeEnd - page = size then some page else findHoleIn w m size pages (some holeEnd)

def findHole (w : World) (m size : ℕ) : Option ℕ := findHoleIn w m size holePages none

def mapPages (host : Host) (w : World) (m start pages : ℕ) (contents : ℤ → Byte) (flags : Flags) :
    World × ℤ :=
  if host.noMemory then (w, eNomem)
  else
    let r := w.mmap (pages * pageSize % 2 ^ 32) contents
    r.2.ptMap m start ((start + pages) % 2 ^ 32 - start) r.1 flags

def mapNothing (host : Host) (w : World) (m start pages : ℕ) (flags : Flags) : World × ℤ :=
  if pages = 0 then (w, 0) else mapPages host w m start pages (fun _ ↦ 0) (flags ||| pAnon)

def pt (host : Host) (m : ℕ) : Handler PtOp PtOp.Reply World
  | .memPt page, w => (w.memPt m page, w)
  | .findHole size, w => (findHole w m size, w)
  | .isHole start pages, w => ((pageLoop start pages).all fun p ↦ (w.memPt m p).isNone, w)
  | .mapNothing start pages flags, w => (mapNothing host w m start pages flags).swap
  | .map start pages contents flags, w =>
    match contents with
    | none => (eInval, w)
    | some contents => (mapPages host w m start pages contents flags).swap
  | .unmap start pages force, w => (w.ptUnmap m start ((start + pages) % 2 ^ 32 - start) force).swap
  | .setFlags start pages flags, w =>
    (w.ptSetFlags host.mprotect m start ((start + pages) % 2 ^ 32 - start) flags).swap

/-! The calls. -/

/-- The macro `PAGE_ROUND_UP`, which wraps around at zero. -/
def pageRoundUp (bytes : Dword) : ℕ := (bytes - 1).toNat / pageSize + 1

def mmapPrivate : Dword := 0x2
def mmapAnonymous : Dword := 0x20

def mremapMaymove : Dword := 1
def mremapFixed : Dword := 2

abbrev Call := Prog PtOp PtOp.Reply

def memPt (page : ℕ) : Call (Option PtEntry) := Prog.perform (PtOp.memPt page)

def ptFindHole (size : ℕ) : Call (Option ℕ) := Prog.perform (PtOp.findHole size)

def ptIsHole (start pages : ℕ) : Call Bool := Prog.perform (PtOp.isHole start pages)

def ptMapNothing (start pages : ℕ) (flags : Flags) : Call ℤ :=
  Prog.perform (PtOp.mapNothing start pages flags)

def ptMap (start pages : ℕ) (contents : Option (ℤ → Byte)) (flags : Flags) : Call ℤ :=
  Prog.perform (PtOp.map start pages contents flags)

def ptUnmap (start pages : ℕ) (force : Bool) : Call ℤ := Prog.perform (PtOp.unmap start pages force)

def ptSetFlags (start pages : ℕ) (flags : Flags) : Call ℤ :=
  Prog.perform (PtOp.setFlags start pages flags)

/-- An open file: no `mmap` operation, or one that is given the offset and
finds the contents of the host's mapping if there is one. -/
abbrev File := Option (Dword → Option (ℤ → Byte))

/-- The page that a mapping starts at. -/
def mmapPage (addr : Addr) (pages : ℕ) : Call (Except ℤ ℕ) := do
  if addr = 0 then
    match ← ptFindHole pages with
    | none => return .error eNomem
    | some page => return .ok page
  else if pgOffset addr ≠ 0 then return .error eInval
  else return .ok (page addr)

def mmapAt (files : Dword → Option File) (page pages : ℕ) (prot flags fd offset : Dword) :
    Call ℤ := do
  if has flags mmapAnonymous then
    if !has flags mmapPrivate then return eInval
    else ptMapNothing page pages prot
  else
    match files fd with
    | none => return ebadf
    | some none => return enodev
    | some (some mmap) => ptMap page pages (mmap offset) prot

def doMmap (files : Dword → Option File) (addr : Addr) (len prot flags fd offset : Dword) :
    Call (Except ℤ Addr) := do
  match ← mmapPage addr (pageRoundUp len) with
  | .error err => return .error err
  | .ok page =>
    let err ← mmapAt files page (pageRoundUp len) prot flags fd offset
    return if err < 0 then .error err else .ok (BitVec.ofNat 32 (page * pageSize))

def badProt (prot : Dword) : Bool := prot &&& ~~~(pRead ||| pWrite ||| pExec) != 0

def mmapCommon (files : Dword → Option File) (addr : Addr) (len prot flags fd offset : Dword) :
    Call (Except ℤ Addr) := do
  if len = 0 then return .error eInval
  else if badProt prot then return .error eInval
  else doMmap files addr len prot flags fd offset

def sysMmap2 (files : Dword → Option File) (addr : Addr) (len prot flags fd offset : Dword) :
    Call (Except ℤ Addr) :=
  mmapCommon files addr len prot flags fd (offset <<< 12)

def sysMmap (files : Dword → Option File) (addr : Addr) (len prot flags fd offset : Dword) :
    Call (Except ℤ Addr) :=
  mmapCommon files addr len prot flags fd offset

def sysMunmap (addr : Addr) (len : Dword) : Call (Except ℤ Addr) := do
  if pgOffset addr ≠ 0 then return .error eInval
  else if len = 0 then return .error eInval
  else
    let err ← ptUnmap (page addr) (pageRoundUp len) false
    return if err < 0 then .error eInval else .ok 0

/-- The loop over the old pages. The flags of an entry are compared if it is
the null pointer. -/
def checkOld : List ℕ → Call Unit
  | [] => return ()
  | p :: pages => do
    match ← memPt p with
    | none => .stuck
    | some _ => checkOld pages

def mremapGrow (addr : Addr) (oldPages newPages : ℕ) : Call (Except ℤ Addr) := do
  match ← memPt (page addr) with
  | none => return .error efault
  | some entry =>
    checkOld (List.range' (page addr) oldPages)
    if !has entry.flags pAnon then return .error efault
    else if !(← ptIsHole (page addr + oldPages) (newPages - oldPages)) then
      return .error eNomem
    else
      let err ← ptMapNothing (page addr + oldPages) (newPages - oldPages) entry.flags
      return if err < 0 then .error err else .ok addr

def sysMremap (addr : Addr) (oldLen newLen flags : Dword) : Call (Except ℤ Addr) := do
  if pgOffset addr ≠ 0 then return .error eInval
  else if has flags (~~~(mremapMaymove ||| mremapFixed)) then return .error eInval
  else if has flags mremapFixed then return .error eInval
  else if page newLen ≤ page oldLen then
    let err ← ptUnmap (page addr + page newLen) (page oldLen - page newLen) false
    return if err < 0 then .error efault else .ok addr
  else mremapGrow addr (page oldLen) (page newLen)

def sysMprotect (addr : Addr) (len prot : Dword) : Call (Except ℤ Addr) := do
  if pgOffset addr ≠ 0 then return .error eInval
  else if badProt prot then return .error eInval
  else
    let err ← ptSetFlags (page addr) (pageRoundUp len) prot
    return if err < 0 then .error err else .ok 0

/-- `sys_brk`, with the break after it. -/
def sysBrk (startBrk brk newBrk : Addr) : Call (Except ℤ Addr × Addr) := do
  if newBrk ≠ 0 ∧ newBrk < startBrk then return (.error eInval, brk)
  else if newBrk = 0 then return (.ok brk, brk)
  else if newBrk > brk then
    let pages := (pageRoundUp newBrk + 2 ^ 32 - pageRoundUp brk) % 2 ^ 32
    let err ← ptMapNothing (pageRoundUp brk) pages pWrite
    return if err < 0 then (.error err, brk) else (.ok newBrk, newBrk)
  else if newBrk < brk then
    let _ ← ptUnmap (page newBrk) (page brk) true
    return (.ok newBrk, newBrk)
  else return (.ok newBrk, newBrk)

/-! The pages that are looked up. -/

/-- The elements up to the first one at which a loop stops. -/
def upTo (stop : ℕ → Bool) : List ℕ → List ℕ
  | [] => []
  | p :: ps => if stop p then [p] else p :: upTo stop ps

/-- The loop of `pt_set_flags` stops at a page the host does not protect. -/
def protectFails (host : Host) (w : World) (m : ℕ) (flags : Flags) (p : ℕ) : Bool :=
  (w.memPt m p).any fun entry ↦ World.raisesProt entry.flags flags &&
    decide (host.mprotect (w.entryPtr entry 0) (has flags pWrite) < 0)

def mappedPages (host : Host) (start pages : ℕ) : List ℕ :=
  if host.noMemory ∨ pages * pageSize % 2 ^ 32 = 0 then [] else pageLoop start pages

/-- A loop that looks for a page that is not mapped, and one over all pages. -/
def checkedPages (w : World) (m start pages : ℕ) (rest : List ℕ) : List ℕ :=
  let absent p := (w.memPt m p).isNone
  upTo absent (pageLoop start pages) ++ if (pageLoop start pages).any absent then [] else rest

/-- The page numbers that a function passes to `mem_pt` and `mem_pt_new`. -/
def PtOp.pages (host : Host) (m : ℕ) (w : World) : PtOp → List ℕ
  | .memPt page => [page]
  | .findHole size => upTo (fun p ↦ Mmap.findHole w m size = some p) holePages
  | .isHole start pages => upTo (fun p ↦ (w.memPt m p).isSome) (pageLoop start pages)
  | .mapNothing start pages _ => if pages = 0 then [] else mappedPages host start pages
  | .map start pages contents _ => if contents.isNone then [] else mappedPages host start pages
  | .unmap start pages force =>
    if force then pageLoop start pages else checkedPages w m start pages (pageLoop start pages)
  | .setFlags start pages flags =>
    checkedPages w m start pages (upTo (protectFails host w m flags) (pageLoop start pages))

/-- The range that a function is given. -/
def PtOp.range : PtOp → Option (ℕ × ℕ)
  | .memPt _ | .findHole _ => none
  | .isHole start pages | .mapNothing start pages _ | .map start pages _ _
  | .unmap start pages _ | .setFlags start pages _ => some (start, pages)

/-- The pages a function looks up are in the address space, and so is its range. -/
def PtOp.Inside (host : Host) (m : ℕ) (w : World) (op : PtOp) : Prop :=
  (∀ p ∈ op.pages host m w, p < memPages) ∧ ∀ r ∈ op.range, r.1 + r.2 ≤ memPages

variable {host : Host} {m : ℕ} {w w' : World} {start pages p : ℕ}

theorem mem_upTo {stop : ℕ → Bool} {l : List ℕ} (h : p ∈ upTo stop l) : p ∈ l := by
  induction l with
  | nil => exact h
  | cons q ps ih =>
    unfold upTo at h
    split at h
    · exact List.mem_singleton.mp h ▸ List.mem_cons_self
    · exact (List.mem_cons.mp h).elim (· ▸ List.mem_cons_self) (List.mem_cons_of_mem q ∘ ih)

theorem mem_pageLoop (h : p ∈ pageLoop start pages) : p < start + pages := by
  obtain ⟨-, hlt⟩ := List.mem_range'_1.mp h
  have hmod := Nat.mod_le (start + pages) (2 ^ 32)
  omega

theorem mem_mappedPages (h : p ∈ mappedPages host start pages) : p < start + pages := by
  unfold mappedPages at h
  split at h
  · cases h
  · exact mem_pageLoop h

theorem mem_checkedPages {rest : List ℕ} (h : p ∈ checkedPages w m start pages rest)
    (hrest : ∀ q ∈ rest, q ∈ pageLoop start pages) : p < start + pages := by
  obtain h | h := List.mem_append.mp h
  · exact mem_pageLoop (mem_upTo h)
  · split at h
    · cases h
    · exact mem_pageLoop (hrest p h)

/-- The pages of a function are in the range it is given. -/
theorem PtOp.pages_lt {op : PtOp} (hr : op.range = some (start, pages))
    (h : p ∈ op.pages host m w) : p < start + pages := by
  cases op with
  | memPt page => cases hr
  | findHole size => cases hr
  | isHole s n =>
    cases hr
    exact mem_pageLoop (mem_upTo h)
  | mapNothing s n flags =>
    cases hr
    rw [PtOp.pages] at h
    split at h
    · cases h
    · exact mem_mappedPages h
  | map s n contents flags =>
    cases hr
    rw [PtOp.pages] at h
    split at h
    · cases h
    · exact mem_mappedPages h
  | unmap s n force =>
    cases hr
    rw [PtOp.pages] at h
    split at h
    · exact mem_pageLoop h
    · exact mem_checkedPages h fun q hq ↦ hq
  | setFlags s n flags =>
    cases hr
    exact mem_checkedPages h fun q hq ↦ mem_upTo hq

theorem PtOp.inside_range {op : PtOp} (hr : op.range = some (start, pages)) :
    op.Inside host m w ↔ start + pages ≤ memPages := by
  refine ⟨fun h ↦ h.2 _ hr, fun h ↦ ⟨fun p hp ↦ (PtOp.pages_lt hr hp).trans_le h, fun r hr' ↦ ?_⟩⟩
  cases hr.symm.trans hr'
  exact h

theorem PtOp.inside_memPt : (PtOp.memPt p).Inside host m w ↔ p < memPages :=
  ⟨fun h ↦ h.1 p List.mem_cons_self,
    fun h ↦ ⟨fun _ hq ↦ List.mem_singleton.mp hq ▸ h, fun _ hr ↦ absurd hr (Option.not_mem_none _)⟩⟩

theorem mem_holePages (h : p ∈ holePages) : p < memPages := by
  unfold holePages at h
  have hlt := (List.mem_range'_1.mp (List.mem_reverse.mp h)).2
  have hmax : memPages = 2 ^ 20 := by decide
  omega

theorem PtOp.inside_findHole {size : ℕ} : (PtOp.findHole size).Inside host m w := by
  refine ⟨fun q hq ↦ ?_, fun _ hr ↦ absurd hr (Option.not_mem_none _)⟩
  rw [PtOp.pages] at hq
  exact mem_holePages (mem_upTo hq)

theorem findHoleIn_le {size top : ℕ} {l : List ℕ} {hole : Option ℕ} (hl : ∀ q ∈ l, q < top)
    (hh : ∀ e ∈ hole, e ≤ top) (h : findHoleIn w m size l hole = some p) : p + size ≤ top := by
  induction l generalizing hole with
  | nil => cases h
  | cons q ps ih =>
    have hq := hl q List.mem_cons_self
    have hps : ∀ r ∈ ps, r < top := fun r hr ↦ hl r (List.mem_cons_of_mem q hr)
    have hend : hole.getD (q + 1) ≤ top := by
      cases hole with
      | none => exact hq
      | some e => exact hh e rfl
    unfold findHoleIn at h
    dsimp only at h
    split at h
    · exact ih hps (fun _ he ↦ absurd he (Option.not_mem_none _)) h
    · split at h
      · cases h
        omega
      · refine ih hps (fun e he ↦ ?_) h
        exact Option.some.inj he ▸ hend

/-- A hole that is found lies in the address space. -/
theorem findHole_le {size : ℕ} (h : findHole w m size = some p) : p + size ≤ memPages := by
  unfold findHole at h
  exact findHoleIn_le (fun _ ↦ mem_holePages) (fun _ he ↦ absurd he (Option.not_mem_none _)) h

/-! The calls. -/

/-- All page table functions that a call reaches are inside. -/
def Safe (host : Host) (m : ℕ) (w : World) {α : Type} (c : Call α) : Prop :=
  c.Always (pt host m) (PtOp.Inside host m) w

theorem safe_pure {α : Type} (a : α) : Safe host m w (pure a : Call α) := Prog.always_pure a

/-- The page that a mapping of `pages` pages at `addr` starts at is in bounds
when the address was chosen by the kernel. -/
theorem safe_mmapPage {addr : Addr} : Safe host m w (mmapPage addr pages) := by
  unfold mmapPage
  split
  · refine Prog.always_perform_bind.mpr ⟨PtOp.inside_findHole, ?_⟩
    split <;> exact safe_pure _
  · split <;> exact safe_pure _

/-- The ways in which `mmap` does not get as far as a mapping. -/
def unmappable (files : Dword → Option File) (flags fd : Dword) : Bool :=
  if has flags mmapAnonymous then !has flags mmapPrivate
  else (files fd).all Option.isNone

/-- A function that is given a range. -/
theorem safe_range {op : PtOp} (hr : op.range = some (start, pages)) :
    Safe host m w (Prog.perform op) ↔ start + pages ≤ memPages :=
  Prog.always_perform.trans (PtOp.inside_range hr)

theorem safe_mmapAt {files : Dword → Option File} {prot flags fd offset : Dword} :
    Safe host m w (mmapAt files start pages prot flags fd offset) ↔
      unmappable files flags fd ∨ start + pages ≤ memPages := by
  unfold mmapAt unmappable
  split
  · split
    · exact iff_of_true (safe_pure _) (.inl ‹_›)
    · rename_i hprivate
      exact (safe_range rfl).trans (or_iff_right hprivate).symm
  · cases files fd with
    | none => exact iff_of_true (safe_pure _) (.inl rfl)
    | some file =>
      cases file with
      | none => exact iff_of_true (safe_pure _) (.inl rfl)
      | some mmap => exact (safe_range rfl).trans (or_iff_right Bool.false_ne_true).symm

theorem run_ptFindHole {α : Type} {f : Option ℕ → Call α} {size : ℕ} :
    (ptFindHole size >>= f).run (pt host m) w = (f (findHole w m size)).run (pt host m) w :=
  Prog.run_perform_bind

theorem mmapPage_zero {page : ℕ}
    (h : (mmapPage 0 pages).run (pt host m) w = some (.ok page, w')) :
    page + pages ≤ memPages := by
  rw [mmapPage, if_pos rfl, run_ptFindHole] at h
  cases hfind : findHole w m pages with
  | none =>
    rw [hfind] at h
    cases h
  | some q =>
    rw [hfind] at h
    cases h
    exact findHole_le hfind

theorem mmapPage_eq {addr : Addr} (h : addr ≠ 0) (ha : pgOffset addr = 0) :
    mmapPage addr pages = pure (.ok (page addr)) := by
  rw [mmapPage, if_neg h, if_neg (not_not.mpr ha)]

theorem safe_doMmap {files : Dword → Option File} {addr : Addr} {len prot flags fd offset : Dword} :
    Safe host m w (doMmap files addr len prot flags fd offset) ↔
      addr = 0 ∨ pgOffset addr ≠ 0 ∨ unmappable files flags fd ∨
        page addr + pageRoundUp len ≤ memPages := by
  unfold doMmap
  by_cases hzero : addr = 0
  · refine iff_of_true (Prog.always_bind.mpr ⟨safe_mmapPage, fun a w' hrun ↦ ?_⟩) (.inl hzero)
    cases a with
    | error err => exact safe_pure _
    | ok page =>
      rw [hzero] at hrun
      refine Prog.always_bind.mpr ⟨safe_mmapAt.mpr (.inr (mmapPage_zero hrun)), ?_⟩
      exact fun _ _ _ ↦ safe_pure _
  · refine Iff.trans ?_ (or_iff_right hzero).symm
    by_cases haligned : pgOffset addr ≠ 0
    · refine iff_of_true ?_ (.inl haligned)
      rw [mmapPage, if_neg hzero, if_pos haligned, pure_bind]
      exact safe_pure _
    · rw [mmapPage_eq hzero (not_not.mp haligned), pure_bind]
      refine (Prog.always_bind.trans (and_iff_left fun _ _ _ ↦ safe_pure _)).trans ?_
      exact safe_mmapAt.trans (or_iff_right haligned).symm

theorem safe_mmapCommon {files : Dword → Option File} {addr : Addr}
    {len prot flags fd offset : Dword} :
    Safe host m w (mmapCommon files addr len prot flags fd offset) ↔
      len = 0 ∨ badProt prot ∨ addr = 0 ∨ pgOffset addr ≠ 0 ∨ unmappable files flags fd ∨
        page addr + pageRoundUp len ≤ memPages := by
  unfold mmapCommon
  split
  · exact iff_of_true (safe_pure _) (.inl ‹_›)
  rename_i hlen
  split
  · exact iff_of_true (safe_pure _) (.inr (.inl ‹_›))
  rename_i hprot
  exact safe_doMmap.trans ((or_iff_right hlen).trans (or_iff_right hprot)).symm

theorem safe_sysMunmap {addr : Addr} {len : Dword} : Safe host m w (sysMunmap addr len) ↔
    pgOffset addr ≠ 0 ∨ len = 0 ∨ page addr + pageRoundUp len ≤ memPages := by
  unfold sysMunmap
  split
  · exact iff_of_true (safe_pure _) (.inl ‹_›)
  rename_i haligned
  split
  · exact iff_of_true (safe_pure _) (.inr (.inl ‹_›))
  rename_i hlen
  refine Iff.trans ?_ ((or_iff_right haligned).trans (or_iff_right hlen)).symm
  refine Prog.always_bind.trans ((and_iff_left fun _ _ _ ↦ safe_pure _).trans (safe_range rfl))

theorem safe_sysMprotect {addr : Addr} {len prot : Dword} :
    Safe host m w (sysMprotect addr len prot) ↔
      pgOffset addr ≠ 0 ∨ badProt prot ∨ page addr + pageRoundUp len ≤ memPages := by
  unfold sysMprotect
  split
  · exact iff_of_true (safe_pure _) (.inl ‹_›)
  rename_i haligned
  split
  · exact iff_of_true (safe_pure _) (.inr (.inl ‹_›))
  rename_i hprot
  refine Iff.trans ?_ ((or_iff_right haligned).trans (or_iff_right hprot)).symm
  refine Prog.always_bind.trans ((and_iff_left fun _ _ _ ↦ safe_pure _).trans (safe_range rfl))

theorem safe_memPt_bind {α : Type} {f : Option PtEntry → Call α} :
    Safe host m w (memPt p >>= f) ↔ p < memPages ∧ Safe host m w (f (w.memPt m p)) :=
  Prog.always_perform_bind.trans (and_congr_left' PtOp.inside_memPt)

/-- The loop of `mremap` ends at the first page that is not mapped. -/
theorem safe_checkOld {n : ℕ} (hs : start ≤ memPages) :
    Safe host m w (checkOld (List.range' start n)) ↔
      (∃ p ∈ List.range' start n, p < memPages ∧ w.memPt m p = none) ∨ start + n ≤ memPages := by
  induction n generalizing start with
  | zero => exact iff_of_true (safe_pure _) (.inr hs)
  | succ n ih =>
    rw [List.range'_succ, checkOld, safe_memPt_bind]
    obtain hlt | rfl := hs.lt_or_eq
    · cases hentry : w.memPt m start with
      | none =>
        exact iff_of_true ⟨hlt, trivial⟩ (.inl ⟨start, List.mem_cons_self, hlt, hentry⟩)
      | some entry =>
        refine (and_iff_right hlt).trans ((ih hlt).trans (or_congr ?_ (by omega)))
        simp [hentry]
    · refine iff_of_false (fun h ↦ lt_irrefl _ h.1) ?_
      rintro (⟨p, hp, hlt, -⟩ | hle)
      · obtain rfl | hp := List.mem_cons.mp hp
        · exact lt_irrefl _ hlt
        · have hge := (List.mem_range'_1.mp hp).1
          omega
      · omega

theorem run_memPt {α : Type} {f : Option PtEntry → Call α} :
    (memPt p >>= f).run (pt host m) w = (f (w.memPt m p)).run (pt host m) w :=
  Prog.run_perform_bind

theorem run_checkOld {l : List ℕ} {u : Unit} :
    (checkOld l).run (pt host m) w = some (u, w') ↔ w' = w ∧ ∀ q ∈ l, (w.memPt m q).isSome := by
  induction l with
  | nil =>
    refine ⟨fun h ↦ ?_, fun h ↦ h.1 ▸ rfl⟩
    cases h
    exact ⟨rfl, nofun⟩
  | cons q ps ih =>
    rw [checkOld, run_memPt, List.forall_mem_cons]
    cases hentry : w.memPt m q with
    | none => exact iff_of_false nofun fun h ↦ nomatch h.2.1
    | some entry => exact ih.trans (and_congr_right fun _ ↦ (and_iff_right rfl).symm)

/-- Growing maps the pages up to the new end. -/
theorem safe_grow {oldPages newPages : ℕ} {entry : PtEntry} {addr : Addr}
    (h : oldPages < newPages) :
    Safe host m w (do
      if !has entry.flags pAnon then return .error efault
      else if !(← ptIsHole (page addr + oldPages) (newPages - oldPages)) then return .error eNomem
      else
        let err ← ptMapNothing (page addr + oldPages) (newPages - oldPages) entry.flags
        return if err < 0 then .error err else .ok addr : Call (Except ℤ Addr)) ↔
      has entry.flags pAnon = false ∨ page addr + newPages ≤ memPages := by
  have hsum : page addr + oldPages + (newPages - oldPages) = page addr + newPages := by omega
  split
  · rename_i hanon
    exact iff_of_true (safe_pure _) (.inl (by simpa using hanon))
  · rename_i hanon
    have hanon : ¬has entry.flags pAnon = false := by simpa using hanon
    refine Iff.trans ?_ (or_iff_right hanon).symm
    have hhole : Safe host m w (ptIsHole (page addr + oldPages) (newPages - oldPages)) ↔
        page addr + newPages ≤ memPages := (safe_range rfl).trans (by rw [hsum])
    refine Prog.always_bind.trans ⟨fun hs ↦ hhole.mp hs.1, fun hle ↦ ⟨hhole.mpr hle, ?_⟩⟩
    intro hole w' _
    split
    · exact safe_pure _
    · exact Prog.always_bind.mpr ⟨(safe_range rfl).mpr (hsum ▸ hle), fun _ _ _ ↦ safe_pure _⟩

/-- The ways in which growing ends before it maps: no entry at the address, a
page of the old range without one, and a mapping that is not anonymous. -/
def GrowStops (w : World) (m : ℕ) (addr : Addr) (oldPages : ℕ) : Prop :=
  w.memPt m (page addr) = none ∨
    (∃ p ∈ List.range' (page addr) oldPages, p < memPages ∧ w.memPt m p = none) ∨
    page addr + oldPages ≤ memPages ∧
      (w.memPt m (page addr)).any fun entry ↦ !has entry.flags pAnon

theorem safe_mremapGrow {addr : Addr} {oldPages newPages : ℕ} (h : oldPages < newPages) :
    Safe host m w (mremapGrow addr oldPages newPages) ↔
      GrowStops w m addr oldPages ∨ page addr + newPages ≤ memPages := by
  refine safe_memPt_bind.trans ((and_iff_right (World.page_lt addr)).trans ?_)
  unfold GrowStops
  cases hentry : w.memPt m (page addr) with
  | none => exact iff_of_true (safe_pure _) (.inl (.inl rfl))
  | some entry =>
    refine Prog.always_bind.trans ((and_congr_left' (safe_checkOld (World.page_lt addr).le)).trans ?_)
    constructor
    · rintro ⟨hcheck, hrest⟩
      by_cases hgap : ∃ p ∈ List.range' (page addr) oldPages, p < memPages ∧ w.memPt m p = none
      · exact .inl (.inr (.inl hgap))
      have hold := hcheck.resolve_left hgap
      have hmapped : ∀ q ∈ List.range' (page addr) oldPages, (w.memPt m q).isSome := by
        intro q hq
        have hlt := (List.mem_range'_1.mp hq).2
        refine Option.isSome_iff_ne_none.mpr fun hnone ↦ hgap ⟨q, hq, hlt.trans_le hold, hnone⟩
      obtain hanon | hle := (safe_grow h).mp (hrest () w (run_checkOld.mpr ⟨rfl, hmapped⟩))
      · exact .inl (.inr (.inr ⟨hold, by simp [hanon]⟩))
      · exact .inr hle
    · intro hcond
      obtain (hnone | hgap | ⟨hold, hanon⟩) | hle := hcond
      · cases hnone
      · refine ⟨.inl hgap, fun _ w' hrun ↦ ?_⟩
        obtain ⟨q, hq, -, hnone⟩ := hgap
        have hsome := (run_checkOld.mp hrun).2 q hq
        rw [hnone] at hsome
        cases hsome
      · exact ⟨.inr hold, fun _ _ _ ↦ (safe_grow h).mpr (.inl (by simpa using hanon))⟩
      · exact ⟨.inr (by omega), fun _ _ _ ↦ (safe_grow h).mpr (.inr hle)⟩

theorem safe_sysMremap {addr : Addr} {oldLen newLen flags : Dword} :
    Safe host m w (sysMremap addr oldLen newLen flags) ↔
      pgOffset addr ≠ 0 ∨ has flags (~~~(mremapMaymove ||| mremapFixed)) ∨ has flags mremapFixed ∨
        if page newLen ≤ page oldLen then page addr + page oldLen ≤ memPages
        else GrowStops w m addr (page oldLen) ∨ page addr + page newLen ≤ memPages := by
  unfold sysMremap
  split
  · exact iff_of_true (safe_pure _) (.inl ‹_›)
  rename_i haligned
  split
  · exact iff_of_true (safe_pure _) (.inr (.inl ‹_›))
  rename_i hflags
  split
  · exact iff_of_true (safe_pure _) (.inr (.inr (.inl ‹_›)))
  rename_i hfixed
  refine Iff.trans ?_
    ((or_iff_right haligned).trans ((or_iff_right hflags).trans (or_iff_right hfixed))).symm
  split
  · rename_i hle
    have hsum : page addr + page newLen + (page oldLen - page newLen) = page addr + page oldLen := by
      omega
    refine (Prog.always_bind.trans (and_iff_left fun _ _ _ ↦ safe_pure _)).trans ?_
    exact (safe_range rfl).trans (by rw [hsum])
  · exact safe_mremapGrow (Nat.lt_of_not_le ‹_›)

theorem pageRoundUp_le (bytes : Dword) : pageRoundUp bytes ≤ memPages := World.page_lt (bytes - 1)

theorem pageRoundUp_zero : pageRoundUp 0 = memPages := by decide

theorem pageRoundUp_of_ne_zero {bytes : Dword} (h : bytes ≠ 0) :
    pageRoundUp bytes = (bytes.toNat - 1) / pageSize + 1 := by
  have hpos : bytes.toNat ≠ 0 := fun hz ↦ h (BitVec.eq_of_toNat_eq hz)
  have hsub : (bytes - 1).toNat = bytes.toNat - 1 := by
    have hone : (1 : Dword).toNat = 1 := rfl
    have hlt := bytes.isLt
    rw [BitVec.toNat_sub, hone]
    omega
  rw [pageRoundUp, hsub]

theorem pageRoundUp_mono {a b : Dword} (ha : a ≠ 0) (h : a < b) : pageRoundUp a ≤ pageRoundUp b := by
  have hlt : a.toNat < b.toNat := h
  have hb : b ≠ 0 := by
    rintro rfl
    exact absurd hlt (Nat.not_lt_zero _)
  rw [pageRoundUp_of_ne_zero ha, pageRoundUp_of_ne_zero hb]
  exact Nat.add_le_add_right (Nat.div_le_div_right (by omega)) 1

/-- Growing the heap asks for the pages up to the new break, and for too many
if the old break is the zero that the macro wraps around at. -/
theorem brk_grow_iff {brk newBrk : Addr} (h : newBrk > brk) :
    pageRoundUp brk + (pageRoundUp newBrk + 2 ^ 32 - pageRoundUp brk) % 2 ^ 32 ≤ memPages ↔
      brk ≠ 0 ∨ pageRoundUp newBrk = memPages := by
  have hmax : memPages = 2 ^ 20 := by decide
  have hnew := pageRoundUp_le newBrk
  by_cases hzero : brk = 0
  · subst hzero
    rw [pageRoundUp_zero]
    simp only [ne_eq, not_true_eq_false, false_or]
    omega
  · refine iff_of_true ?_ (.inl hzero)
    have hmono := pageRoundUp_mono hzero h
    omega

theorem safe_sysBrk {startBrk brk newBrk : Addr} : Safe host m w (sysBrk startBrk brk newBrk) ↔
    newBrk = 0 ∨ newBrk < startBrk ∨
      (newBrk > brk → brk ≠ 0 ∨ pageRoundUp newBrk = memPages) ∧
      (newBrk < brk → page newBrk + page brk ≤ memPages) := by
  unfold sysBrk
  split
  · rename_i hlow
    exact iff_of_true (safe_pure _) (.inr (.inl hlow.2))
  rename_i hlow
  split
  · exact iff_of_true (safe_pure _) (.inl ‹_›)
  rename_i hnew
  have hlow : ¬newBrk < startBrk := fun h ↦ hlow ⟨hnew, h⟩
  refine Iff.trans ?_ ((or_iff_right hnew).trans (or_iff_right hlow)).symm
  split
  · rename_i hgrow
    have hshrink : ¬newBrk < brk := BitVec.not_lt.mpr (BitVec.le_of_lt hgrow)
    refine Iff.trans ?_ ((and_iff_left fun h ↦ absurd h hshrink).trans (imp_iff_right hgrow)).symm
    refine (Prog.always_bind.trans (and_iff_left fun _ _ _ ↦ safe_pure _)).trans ?_
    exact (safe_range rfl).trans (brk_grow_iff hgrow)
  · rename_i hgrow
    refine Iff.trans ?_ (and_iff_right fun h ↦ absurd h hgrow).symm
    split
    · rename_i hshrink
      refine Iff.trans ?_ (imp_iff_right hshrink).symm
      exact (Prog.always_bind.trans (and_iff_left fun _ _ _ ↦ safe_pure _)).trans (safe_range rfl)
    · exact iff_of_true (safe_pure _) fun h ↦ absurd h ‹_›

/-- A memory call of the guest. -/
inductive MemCall
  | mmap (addr : Addr) (len prot flags fd offset : Dword)
  | mmap2 (addr : Addr) (len prot flags fd offset : Dword)
  | munmap (addr : Addr) (len : Dword)
  | mprotect (addr : Addr) (len prot : Dword)
  | mremap (addr : Addr) (oldLen newLen flags : Dword)
  | brk (newBrk : Addr)

/-- What a task's memory calls depend on beside its page table. -/
structure Space where
  files : Dword → Option File
  startBrk : Addr
  brk : Addr

/-- A call, with the break after it. -/
def MemCall.call (s : Space) : MemCall → Call (Except ℤ Addr × Addr)
  | .mmap addr len prot flags fd offset =>
    (·, s.brk) <$> sysMmap s.files addr len prot flags fd offset
  | .mmap2 addr len prot flags fd offset =>
    (·, s.brk) <$> sysMmap2 s.files addr len prot flags fd offset
  | .munmap addr len => (·, s.brk) <$> sysMunmap addr len
  | .mprotect addr len prot => (·, s.brk) <$> sysMprotect addr len prot
  | .mremap addr oldLen newLen flags => (·, s.brk) <$> sysMremap addr oldLen newLen flags
  | .brk newBrk => sysBrk s.startBrk s.brk newBrk

/-- The arguments that keep a call inside of the address space. The lines
before the last of each are the ways in which it ends early. -/
def MemCall.Fits (m : ℕ) (w : World) (s : Space) : MemCall → Prop
  | .mmap addr len prot flags fd _ | .mmap2 addr len prot flags fd _ =>
    len = 0 ∨ badProt prot ∨ addr = 0 ∨ pgOffset addr ≠ 0 ∨ unmappable s.files flags fd ∨
      page addr + pageRoundUp len ≤ memPages
  | .munmap addr len => pgOffset addr ≠ 0 ∨ len = 0 ∨ page addr + pageRoundUp len ≤ memPages
  | .mprotect addr len prot =>
    pgOffset addr ≠ 0 ∨ badProt prot ∨ page addr + pageRoundUp len ≤ memPages
  | .mremap addr oldLen newLen flags =>
    pgOffset addr ≠ 0 ∨ has flags (~~~(mremapMaymove ||| mremapFixed)) ∨ has flags mremapFixed ∨
      if page newLen ≤ page oldLen then page addr + page oldLen ≤ memPages
      else GrowStops w m addr (page oldLen) ∨ page addr + page newLen ≤ memPages
  | .brk newBrk =>
    newBrk = 0 ∨ newBrk < s.startBrk ∨
      (newBrk > s.brk → s.brk ≠ 0 ∨ pageRoundUp newBrk = memPages) ∧
      (newBrk < s.brk → page newBrk + page s.brk ≤ memPages)

theorem safe_map {α β : Type} {c : Call α} {f : α → β} : Safe host m w (f <$> c) ↔ Safe host m w c :=
  Prog.always_bind.trans (and_iff_left fun _ _ _ ↦ safe_pure _)

/-- A memory call passes page numbers and ranges inside of the address space,
and no others, exactly when its arguments fit. -/
theorem memCall_inside_iff (host : Host) (m : ℕ) (w : World) (s : Space) (c : MemCall) :
    (c.call s).Always (pt host m) (PtOp.Inside host m) w ↔ c.Fits m w s := by
  cases c with
  | mmap addr len prot flags fd offset => exact safe_map.trans safe_mmapCommon
  | mmap2 addr len prot flags fd offset => exact safe_map.trans safe_mmapCommon
  | munmap addr len => exact safe_map.trans safe_sysMunmap
  | mprotect addr len prot => exact safe_map.trans safe_sysMprotect
  | mremap addr oldLen newLen flags => exact safe_map.trans safe_sysMremap
  | brk newBrk => exact safe_sysBrk

/-- One page, the last of the address space. -/
def lastPage : World := (World.init.ptMapNothing 0 0xfffff 1 pWrite).1

def sampleHost : Host := ⟨fun _ _ ↦ 0, false⟩

def sampleSpace : Space := ⟨fun _ ↦ none, 0x8000000, 0x8000000⟩

/-- `munmap` of two pages from the last one on looks up the page after it, and
`mprotect` of no bytes is given a range of all pages. -/
theorem munmap_past_end :
    memPages ∈ (PtOp.unmap 0xfffff 2 false).pages sampleHost 0 lastPage ∧
    ¬((MemCall.munmap 0xfffff000 0x2000).call sampleSpace).Always (pt sampleHost 0)
      (PtOp.Inside sampleHost 0) lastPage ∧
    ¬((MemCall.mprotect 0xfffff000 0 1).call sampleSpace).Always (pt sampleHost 0)
      (PtOp.Inside sampleHost 0) lastPage := by
  refine ⟨by decide +kernel, fun h ↦ ?_, fun h ↦ ?_⟩
  · exact absurd (safe_sysMunmap.mp (safe_map.mp h)) (by decide)
  · exact absurd (safe_sysMprotect.mp (safe_map.mp h)) (by decide)

end Isl.Kernel.Mmap
