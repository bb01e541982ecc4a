import Isl.Kernel.ThreadAccess

/-!
Threads with one address space. Each runs `cpu_run` with its own translation
cache under the read lock of the space; the calls that map take the write lock.
-/

namespace Isl.Kernel.Threads

open Isl.Emu Isl.Emu.Memory Isl.Kernel.Mmap Isl.Lib.Run

structure Thread where
  tlb : Tlb
  changes : ℕ
  running : Bool

/-- `written` is the byte that a `tlb_write` stored last at an address, since
its page was mapped. -/
structure State (n : ℕ) where
  world : World
  mem : ℕ
  thread : Fin n → Thread
  written : Addr → Option Byte

/-- The calls under the write lock: `mmap`, `munmap`, `mprotect` and the copy of
a fork, which `mem_new` comes before. -/
def mapping (m : ℕ) : Memory.Op → Prop
  | .new => True
  | .mapNothing m' _ _ _ | .map m' _ _ _ _ | .unmap m' _ _ _ | .setFlags _ m' _ _ _ => m' = m
  | .copyOnWrite src srcStart _ dstStart _ => src = m ∧ srcStart = dstStart
  | _ => False

instance (m : ℕ) : (op : Memory.Op) → Decidable (mapping m op)
  | .new => isTrue trivial
  | .mapNothing m' _ _ _ | .map m' _ _ _ _ | .unmap m' _ _ _ | .setFlags _ m' _ _ _ =>
    inferInstanceAs (Decidable (m' = m))
  | .copyOnWrite src srcStart _ dstStart _ =>
    inferInstanceAs (Decidable (src = m ∧ srcStart = dstStart))
  | .retain _ | .release _ | .load _ _ | .store _ _ _ => isFalse not_false

/-- The memory a page is mapped to. -/
def backing (w : World) (m p : ℕ) : Option (ℕ × ℕ) := (w.memPt m p).map fun e ↦ (e.data, e.offset)

/-- The pages that a call maps anew start without a last write. -/
def forget (w w' : World) (m : ℕ) (written : Addr → Option Byte) (a : Addr) : Option Byte :=
  if backing w' m (page a) = backing w m (page a) then written a else none

/-- `enter` is a call of `cpu_run`. -/
inductive Event (n : ℕ)
  | enter (i : Fin n)
  | read (i : Fin n) (addr : Addr) (size : ℕ)
  | write (i : Fin n) (addr : Addr) (value : List Byte)
  | interrupt (i : Fin n)
  | resume (i : Fin n)
  | call (op : Memory.Op)

/-! What a mapping call does to the pages it leaves. -/

section

variable {w w' : World} {m : ℕ} {op : Memory.Op} {written : Addr → Option Byte}

theorem mapping.inPlace (h : mapping m op) : op.InPlace := by
  cases op with
  | copyOnWrite src srcStart dst dstStart pages => exact h.2
  | _ => trivial

theorem apply_of_step (h : w.step op = some w') : w.apply op = w' := by
  unfold World.step at h
  split at h <;> cases h
  rfl

theorem entryPtr_samePage {m' p p' : ℕ} {e f : PtEntry} (hb : World.KeepsBlocks w w') (hw : w.Wf)
    (hw' : w'.Wf) (he : w.memPt m p = some e) (hf : w'.memPt m' p' = some f)
    (hs : World.samePage e f) (off : ℕ) : w'.entryPtr f off = w.entryPtr e off := by
  obtain ⟨z, hz⟩ := hw.mapped he
  obtain ⟨x, hx⟩ := hw'.mapped hf
  obtain ⟨y, hy, hyx⟩ := hb f.data x (hs.1 ▸ hw.dataLt hz) hx
  rw [← hs.1] at hx hy
  simp [World.entryPtr, ← hs.1, ← hs.2, hx, hy, hyx]

theorem mapping.still (h : mapping m op) (hw : w.Wf) (hm : m < w.nextMem)
    (hs : w.step op = some w') :
    (w.mem m).changes ≤ (w'.mem m).changes ∧
      ((w'.mem m).changes = (w.mem m).changes → ∀ p, KeepsPage w w' m p) := by
  have hw' := hw.step hs
  obtain rfl := apply_of_step hs
  have hb := World.KeepsBlocks.apply w op
  have hstable (hok : World.Accepted m w op) :
      (w.mem m).changes ≤ ((w.apply op).mem m).changes ∧
        (((w.apply op).mem m).changes = (w.mem m).changes →
          ∀ p, KeepsPage w (w.apply op) m p) := by
    have hst := World.Stable.apply hm hok
    exact ⟨hst.mono, fun heq p ↦ .of_kept hw hw' hb fun e he ↦ hst.kept heq p e he⟩
  cases op with
  | setFlags mprotect m' start pages flags =>
    obtain rfl : m' = m := h
    refine ⟨World.ptSetFlags_changes_le mprotect m' start pages flags m', fun _ p e he ↦ ?_⟩
    have hpt := World.memPt_ptSetFlags (w := w) mprotect m' start pages flags m' p
    rw [he] at hpt
    split at hpt
    · refine ⟨_, hpt, fun off ↦ ?_⟩
      exact entryPtr_samePage hb hw hw' he hpt ⟨rfl, rfl⟩ off
    · exact ⟨e, hpt, hb.entryPtr hw hw' he hpt⟩
  | _ => exact hstable trivial

theorem mapping.byte (h : mapping m op) {b : ℕ} (hb : b < w.nextBlock) :
    (w.apply op).byte b = w.byte b := by
  cases op with
  | new => rfl
  | mapNothing m' start pages flags =>
    exact (World.ptMapNothing_frame (Nat.zero_le _) le_rfl start pages flags).byte b hb
  | map m' start pages contents flags =>
    exact (World.ptMapFresh_frame (Nat.zero_le _) le_rfl start pages contents flags).byte b hb
  | unmap m' start pages force =>
    exact (World.ptUnmap_frame (n := 0) start pages force).byte b hb
  | setFlags mprotect m' start pages flags =>
    exact congrFun (World.ptSetFlags_sameMemory mprotect m' start pages flags).byte b
  | copyOnWrite src srcStart dst dstStart pages =>
    have hpages (n : ℕ) : (w.cowPages src srcStart dst dstStart n).byte = w.byte := by
      induction n with
      | zero => rfl
      | succ n ih => rw [World.cowPages_succ, World.cowPage_byte, ih]
    exact congrFun (hpages pages) b
  | retain | release | load | store => exact h.elim

/-- The bytes of a page that keeps its memory stay. -/
theorem mapping.holds (h : mapping m op) (hw : w.Wf) (hs : w.step op = some w')
    (hh : Holds w m written) : Holds w' m (forget w w' m written) := by
  have hw' := hw.step hs
  obtain rfl := apply_of_step hs
  intro a b hab
  unfold forget at hab
  split at hab
  · rename_i hback
    have hb := hh a b hab
    cases he : w.memPt m (page a) with
    | none => simp [byteAt, he] at hb
    | some e =>
      simp only [backing, he, Option.map_some] at hback
      obtain ⟨f, hf, hfe⟩ := Option.map_eq_some_iff.mp hback
      obtain ⟨hd, ho⟩ := Prod.mk.inj hfe
      have hptr := entryPtr_samePage (World.KeepsBlocks.apply w op) hw hw' he hf ⟨hd.symm, ho.symm⟩
      rw [byteAt_of_memPt hw' hf, hptr, h.byte (hw.entryPtr_lt he _), ← byteAt_of_memPt hw he, hb]
  · cases hab

end

namespace State

variable {n : ℕ}

def start (n : ℕ) (w : World) (m : ℕ) : State n :=
  { world := w
    mem := m
    thread := fun _ ↦ ⟨(Cpu.start w m).tlb, (Cpu.start w m).changes, false⟩
    written := fun _ ↦ none }

def cpu (s : State n) (i : Fin n) : Cpu :=
  ⟨s.world, s.mem, (s.thread i).tlb, (s.thread i).changes, (s.thread i).running⟩

def put (s : State n) (i : Fin n) (c : Cpu) : State n :=
  { s with world := c.world, thread := Function.update s.thread i ⟨c.tlb, c.changes, c.running⟩ }

/-- No access of the interpreter is longer than a page. -/
def step (s : State n) : Event n → Option (State n)
  | .enter i => if (s.thread i).running then none else some (s.put i (Cpu.start s.world s.mem))
  | .read i addr size =>
    if size ≤ pageSize then ((s.cpu i).step (.read addr size)).map (s.put i) else none
  | .write i addr value =>
    let ok := (tlbWrite s.world (s.thread i).tlb addr value).2.2
    if value.length ≤ pageSize then
      ((s.cpu i).step (.write addr value)).map fun c ↦
        { s.put i c with written := if ok then record s.written addr value else s.written }
    else none
  | .interrupt i => ((s.cpu i).step .interrupt).map (s.put i)
  | .resume i => ((s.cpu i).step .resume).map (s.put i)
  | .call op =>
    if (∀ i, (s.thread i).running = false) ∧ mapping s.mem op then
      (s.world.step op).map fun w ↦
        { s with world := w, written := forget s.world w s.mem s.written }
    else none

/-- Another running thread has the page in its cache. -/
def CachedElsewhere (s : State n) (i : Fin n) (p : ℕ) : Prop :=
  ∃ j, j ≠ i ∧ (s.thread j).running ∧ ∃ k, ((s.thread j).tlb.entries k).page ≠ tlbPageEmpty ∧
    page ((s.thread j).tlb.entries k).page = p

/-- A write gives no page a copy of its memory that another running thread has
cached, and the 32-bit counter tells a change from none. -/
def Refreshed (s : State n) : Event n → Prop
  | .write i addr value =>
    ∀ p, Touches addr value.length p → BreaksCow s.world s.mem p → ¬s.CachedElsewhere i p
  | .resume i =>
    (s.world.mem s.mem).changes = (s.thread i).changes ∨
      (s.world.mem s.mem).changes % 2 ^ 32 ≠ (s.thread i).changes % 2 ^ 32
  | _ => True

/-- What a thread's next read finds is what was written last. -/
def ReadsLast (s : State n) (i : Fin n) : Prop :=
  ∀ addr size, size ≤ pageSize → ∀ bytes,
    (tlbRead s.world (s.thread i).tlb addr size).2.2 = some bytes →
    ∀ k < size, ∀ b, s.written (addr + BitVec.ofNat 32 k) = some b → bytes[k]? = some b

structure Inv (s : State n) : Prop where
  wf : s.world.Wf
  unaliased : s.world.Unaliased
  memLt : s.mem < s.world.nextMem
  tlbMem : ∀ i, (s.thread i).tlb.mem = s.mem
  slots : ∀ i k, InSlot k ((s.thread i).tlb.entries k)
  count : ∀ i, (s.thread i).changes ≤ (s.world.mem s.mem).changes
  translated : ∀ i, (s.thread i).running ∨ (s.world.mem s.mem).changes = (s.thread i).changes →
    ∀ k, ((s.thread i).tlb.entries k).page ≠ tlbPageEmpty →
      Translates s.world s.mem ((s.thread i).tlb.entries k)
  holds : Holds s.world s.mem s.written

theorem Inv.cached {s : State n} (h : s.Inv) {i : Fin n} (hr : (s.thread i).running) :
    Cached s.world s.mem (s.thread i).tlb :=
  ⟨h.tlbMem i, h.slots i, h.translated i (.inl hr)⟩

theorem start_inv {w : World} {m : ℕ} (hw : Reaches World.step (fun _ op ↦ op.InPlace) World.init w)
    (hm : w.inUse m) : (start n w m).Inv where
  wf := World.wf_of_reaches (hw.mono fun _ _ _ ↦ trivial)
  unaliased := World.unaliased_of_reaches hw
  memLt := hm.1
  tlbMem _ := rfl
  slots _ k := tlbFlush_inSlot _ k
  count _ := le_rfl
  translated _ _ _ hk := absurd rfl hk
  holds := nofun

section

variable {s t : State n} {i : Fin n} {w' : World} {tlb' : Tlb} {broken : ℕ → Prop}
  {written' : Addr → Option Byte}

/-- An access of a running thread that gives other memory to no page another
running thread has cached. -/
theorem Inv.access (h : s.Inv) (hr : (s.thread i).running)
    (ha : Accessed s.mem broken s.world w') (hc : Cached w' s.mem tlb')
    (hh : Holds w' s.mem written') (hb : ∀ p, broken p → ¬s.CachedElsewhere i p) :
    { s.put i ⟨w', s.mem, tlb', (s.thread i).changes, (s.thread i).running⟩ with
      written := written' : State n }.Inv := by
  refine ⟨ha.wf, ha.unaliased, ha.nextMem ▸ h.memLt, fun j ↦ ?_, fun j k ↦ ?_, fun j ↦ ?_,
    fun j hj k hk ↦ ?_, hh⟩ <;> by_cases hji : j = i <;> dsimp only [put] at *
  · subst hji
    rw [Function.update_self]
    exact hc.mem
  · rw [Function.update_of_ne hji]
    exact h.tlbMem j
  · subst hji
    rw [Function.update_self]
    exact hc.slots k
  · rw [Function.update_of_ne hji]
    exact h.slots j k
  · subst hji
    rw [Function.update_self]
    exact (h.count j).trans ha.changes
  · rw [Function.update_of_ne hji]
    exact (h.count j).trans ha.changes
  · subst hji
    rw [Function.update_self] at hk ⊢
    exact hc.translated k hk
  · rw [Function.update_of_ne hji] at hj hk ⊢
    by_cases hrj : (s.thread j).running
    · refine (h.translated j (.inl hrj) k hk).keep (ha.page _ fun hp ↦ ?_)
      exact hb _ hp ⟨j, hji, hrj, k, hk, rfl⟩
    · have heq := hj.resolve_left hrj
      have hle := h.count j
      have hmono := ha.changes
      exact (h.translated j (.inr (by omega)) k hk).keep (ha.still (by omega) _)

/-- A thread that changes its own cache only. -/
theorem Inv.own (h : s.Inv) {c : Cpu} (hworld : c.world = s.world) (hmem : c.tlb.mem = s.mem)
    (hslots : ∀ k, InSlot k (c.tlb.entries k)) (hcount : c.changes ≤ (s.world.mem s.mem).changes)
    (ht : c.running ∨ (s.world.mem s.mem).changes = c.changes → ∀ k,
      (c.tlb.entries k).page ≠ tlbPageEmpty → Translates s.world s.mem (c.tlb.entries k)) :
    (s.put i c).Inv := by
  obtain ⟨w, m, tlb, changes, running⟩ := c
  obtain rfl : w = s.world := hworld
  refine ⟨h.wf, h.unaliased, h.memLt, fun j ↦ ?_, fun j k ↦ ?_, fun j ↦ ?_,
    fun j hj k hk ↦ ?_, h.holds⟩ <;> by_cases hji : j = i <;> dsimp only [put] at *
  · subst hji
    rwa [Function.update_self]
  · rw [Function.update_of_ne hji]
    exact h.tlbMem j
  · subst hji
    rw [Function.update_self]
    exact hslots k
  · rw [Function.update_of_ne hji]
    exact h.slots j k
  · subst hji
    rwa [Function.update_self]
  · rw [Function.update_of_ne hji]
    exact h.count j
  · subst hji
    rw [Function.update_self] at hj hk ⊢
    exact ht hj k hk
  · rw [Function.update_of_ne hji] at hj hk ⊢
    exact h.translated j hj k hk

theorem Inv.enter (h : s.Inv) : (s.put i (Cpu.start s.world s.mem)).Inv :=
  h.own rfl rfl (tlbFlush_inSlot _) le_rfl fun _ _ hk ↦ absurd rfl hk

theorem Inv.interrupt (h : s.Inv) (hr : (s.thread i).running) :
    (s.put i { s.cpu i with running := false }).Inv :=
  h.own rfl (h.tlbMem i) (h.slots i) (h.count i) fun _ ↦ h.translated i (.inl hr)

theorem Inv.resume (h : s.Inv) (hok : s.Refreshed (.resume i)) : (s.put i (s.cpu i).resume).Inv := by
  by_cases hne : (s.world.mem s.mem).changes % 2 ^ 32 ≠ (s.thread i).changes % 2 ^ 32
  · have hflush : (s.cpu i).resume = { s.cpu i with
        tlb := tlbFlush { (s.thread i).tlb with mem := s.mem }
        changes := (s.world.mem s.mem).changes
        running := true } := if_pos hne
    rw [hflush]
    exact h.own rfl rfl (tlbFlush_inSlot _) le_rfl fun _ _ hk ↦ absurd rfl hk
  · have hkeep : (s.cpu i).resume =
        { s.cpu i with tlb := { (s.thread i).tlb with mem := s.mem }, running := true } := if_neg hne
    have heq := hok.resolve_right hne
    rw [hkeep]
    exact h.own rfl rfl (h.slots i) (h.count i) fun _ ↦ h.translated i (.inr heq)

theorem Inv.call {op : Memory.Op} (h : s.Inv) (hall : ∀ i, (s.thread i).running = false)
    (hop : mapping s.mem op) (hs : s.world.step op = some w') :
    { s with world := w', written := forget s.world w' s.mem s.written : State n }.Inv := by
  obtain ⟨hmono, hstill⟩ := hop.still h.wf h.memLt hs
  refine ⟨h.wf.step hs, h.unaliased.step h.wf hop.inPlace hs, ?_, h.tlbMem, h.slots,
    fun j ↦ (h.count j).trans hmono, fun j hj k hk ↦ ?_, hop.holds h.wf hs h.holds⟩
  · obtain rfl := apply_of_step hs
    exact h.memLt.trans_le (World.apply_nextMem s.world op)
  · have hr := hall j
    have heq := hj.resolve_left (by simp [hr])
    have hle := h.count j
    dsimp only at heq
    exact (h.translated j (.inr (by omega)) k hk).keep (hstill (by omega) _)

/-- One event keeps the invariant. -/
theorem Inv.step {ev : Event n} (h : s.Inv) (hok : s.Refreshed ev) (hs : s.step ev = some t) :
    t.Inv := by
  cases ev with
  | enter i =>
    simp only [State.step, Option.ite_none_left_eq_some, Option.some.injEq] at hs
    obtain ⟨-, rfl⟩ := hs
    exact h.enter
  | read i addr size =>
    simp only [State.step, Cpu.step, Option.ite_none_right_eq_some, Option.map_eq_some_iff,
      Option.some.injEq] at hs
    obtain ⟨hsize, c, ⟨hr, rfl⟩, rfl⟩ := hs
    obtain ⟨ha, hh, hc, -⟩ := (h.cached hr).tlbRead h.wf h.unaliased addr hsize
    exact h.access hr ha hc (hh h.holds) fun _ hp ↦ hp.elim
  | write i addr value =>
    simp only [State.step, Cpu.step, Option.ite_none_right_eq_some, Option.map_eq_some_iff,
      Option.some.injEq] at hs
    obtain ⟨hlen, c, ⟨hr, rfl⟩, rfl⟩ := hs
    obtain ⟨ha, hc, hh⟩ := (h.cached hr).tlbWrite h.wf h.unaliased addr hlen h.holds
    exact h.access hr ha hc hh fun p hp ↦ hok p hp.1 hp.2
  | interrupt i =>
    simp only [State.step, Cpu.step, Option.map_eq_some_iff, Option.ite_none_right_eq_some,
      Option.some.injEq] at hs
    obtain ⟨c, ⟨hr, rfl⟩, rfl⟩ := hs
    exact h.interrupt hr
  | resume i =>
    simp only [State.step, Cpu.step, Option.map_eq_some_iff, Option.ite_none_left_eq_some,
      Option.some.injEq] at hs
    obtain ⟨c, ⟨-, rfl⟩, rfl⟩ := hs
    exact h.resume hok
  | call op =>
    simp only [State.step, Option.ite_none_right_eq_some, Option.map_eq_some_iff] at hs
    obtain ⟨⟨hall, hop⟩, w', hw', rfl⟩ := hs
    exact h.call hall hop hw'

end

/-! Two threads of a parent with one page, after a fork. -/

theorem cowPages_one {w : World} {src dst p : ℕ} {e : PtEntry} (he : w.memPt src p = some e)
    (hothers : ∀ q, q ≠ p → w.memPt src q = none) (n : ℕ) :
    w.cowPages src 0 dst 0 n = if p < n then World.cowPage src dst w p p else w := by
  induction n with
  | zero => rfl
  | succ n ih =>
    rw [World.cowPages_succ, Nat.zero_add, ih]
    obtain hlt | rfl | hgt := Nat.lt_trichotomy p n
    · have hnone : (World.cowPage src dst w p p).memPt src n = none := by
        rw [World.memPt_cowPage he, if_neg fun h ↦ hlt.ne' h.2, hothers n hlt.ne']
      rw [if_pos hlt, if_pos (hlt.trans (Nat.lt_succ_self n)), World.cowPage_none hnone]
    · rw [if_neg (lt_irrefl p), if_pos (Nat.lt_succ_self p)]
    · rw [if_neg (by omega), if_neg (by omega), World.cowPage_none (hothers n hgt.ne)]

def forkedPage : World := (World.onePage.memNew.2.ptCopyOnWrite 0 16 1 16 1).1

theorem fork_onePage : World.onePage.fork 0 = forkedPage := by
  have hpt : World.onePage.memNew.2.memPt = World.onePage.memPt :=
    World.memNew_memPt (World.wf_of_reaches World.onePage_reaches)
  have hothers (q : ℕ) (hq : q ≠ 16) : World.onePage.memNew.2.memPt 0 q = none := by
    rw [hpt]
    have h := World.memPt_ptMap_one (World.init.memNew.2.mmap pageSize fun _ ↦ 0).2 0 16 0
      (pRead ||| pWrite ||| pAnon) 0 q
    rw [if_neg fun h ↦ hq h.2] at h
    exact h
  have he : World.onePage.memNew.2.memPt 0 16 = some ⟨0, 0, pRead ||| pWrite ||| pAnon⟩ := by
    rw [hpt, World.onePage_memPt]
  have hall : World.onePage.memNew.2.cowPages 0 0 1 0 memPages = _ :=
    cowPages_one he hothers memPages
  have hmax : 16 < memPages := by decide
  rw [if_pos hmax] at hall
  unfold World.fork forkedPage
  rw [World.ptCopyOnWrite_eq, World.ptCopyOnWrite_eq]
  have hone : World.onePage.nextMem = 1 := rfl
  rw [hone, hall]
  rfl

theorem forkedPage_reaches :
    Reaches World.step (fun _ op ↦ op.InPlace) World.init forkedPage := by
  refine (((Reaches.start.next (a := .new) trivial rfl).next
    (a := .mapNothing 0 16 1 (pRead ||| pWrite)) trivial rfl).next (a := .new) trivial rfl).next
    (a := .copyOnWrite 0 16 1 16 1) rfl ?_
  rfl

end State

end Isl.Kernel.Threads
