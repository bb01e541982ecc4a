import Isl.Emu.CopyOnWrite
import Isl.Emu.Tlb

/-!
The loop of `cpu_run` in `emu/interp.c` over its translation cache: the cache is
flushed when the change counter of the address space is not the one remembered.
-/

namespace Isl.Emu

open Memory Isl.Lib.Run

/-- `cpu_run` between two steps (`running`) or inside `handle_interrupt`.
`changes` is the counter it remembers, of which the source keeps 32 bits. -/
structure Cpu where
  world : World
  mem : ℕ
  tlb : Tlb
  changes : ℕ
  running : Bool

namespace Cpu

def start (w : World) (m : ℕ) : Cpu :=
  { world := w
    mem := m
    tlb := tlbFlush ⟨m, 0, fun _ ↦ ⟨0, 0, ⟨0, 0⟩⟩⟩
    changes := (w.mem m).changes
    running := true }

/-- Accesses of the interpreter, calls on address spaces made in
`handle_interrupt` or by other tasks, and the two ends of an interrupt. -/
inductive Event
  | readPtr (addr : Addr)
  | writePtr (addr : Addr)
  | read (addr : Addr) (size : ℕ)
  | write (addr : Addr) (value : List Byte)
  | interrupt
  | call (op : Memory.Op)
  | exec
  | resume

/-- `mem_release(current->mem); current->mem = current->cpu.mem = mem_new();` -/
def exec (s : Cpu) : Cpu :=
  let r := (s.world.memRelease s.mem).memNew
  { s with world := r.2, mem := r.1 }

/-- What `cpu_run` does after `handle_interrupt` returns. -/
def resume (s : Cpu) : Cpu :=
  let s := { s with running := true, tlb := { s.tlb with mem := s.mem } }
  if (s.world.mem s.mem).changes % 2 ^ 32 ≠ s.changes % 2 ^ 32 then
    { s with tlb := tlbFlush s.tlb, changes := (s.world.mem s.mem).changes }
  else s

def step (s : Cpu) : Event → Option Cpu
  | .readPtr addr =>
    let r := tlbReadPtr s.world s.tlb addr
    if s.running then some { s with world := r.1, tlb := r.2.1 } else none
  | .writePtr addr =>
    let r := tlbWritePtr s.world s.tlb addr
    if s.running then some { s with world := r.1, tlb := r.2.1 } else none
  | .read addr size =>
    let r := tlbRead s.world s.tlb addr size
    if s.running then some { s with world := r.1, tlb := r.2.1 } else none
  | .write addr value =>
    let r := tlbWrite s.world s.tlb addr value
    if s.running then some { s with world := r.1, tlb := r.2.1 } else none
  | .interrupt => if s.running then some { s with running := false } else none
  | .call op =>
    -- the task's own space is its own: others never touch it
    if s.running ∧ op.touches s.mem then none
    else (s.world.step op).map fun w ↦ { s with world := w }
  | .exec => if s.running ∨ ¬s.world.inUse s.mem then none else some s.exec
  | .resume => if s.running then none else some s.resume

end Cpu

namespace Cpu

variable {s t : Cpu} {w : World} {m : ℕ}

/-- The remembered counter is never ahead, and while it is up to date the cache
agrees with the page table. -/
structure Inv (s : Cpu) : Prop where
  wf : s.world.Wf
  memLt : s.mem < s.world.nextMem
  tlbLt : s.tlb.mem < s.world.nextMem
  slots : ∀ i, InSlot i (s.tlb.entries i)
  same : s.running → s.tlb.mem = s.mem
  count : s.tlb.mem = s.mem → s.changes ≤ (s.world.mem s.mem).changes
  coherent : s.running ∨ (s.tlb.mem = s.mem ∧ (s.world.mem s.mem).changes = s.changes) →
    Coherent s.world s.mem s.tlb

theorem Inv.good (h : s.Inv) (hr : s.running) : Good s.world s.tlb :=
  ⟨h.wf, h.slots, h.same hr ▸ h.coherent (.inl hr)⟩

theorem start_inv (hw : w.Wf) (hm : m < w.nextMem) : (start w m).Inv :=
  ⟨hw, hm, hm, tlbFlush_inSlot _, fun _ ↦ rfl, fun _ ↦ le_rfl, fun _ ↦ tlbFlush_coherent w m _⟩

theorem Inv.advance {w' : World} {tlb' : Tlb} (h : s.Inv) (hr : s.running)
    (ha : Advance s.world s.tlb w' tlb') : { s with world := w', tlb := tlb' : Cpu }.Inv := by
  have hsame := h.same hr
  have hmem := ha.mem.trans hsame
  refine ⟨ha.good.wf, ?_, ?_, ha.good.slots, fun _ ↦ hmem, fun _ ↦ ?_, fun _ ↦ ?_⟩
  · exact ha.nextMem ▸ h.memLt
  · rw [ha.mem, ha.nextMem]
    exact h.tlbLt
  · have hc := ha.changes
    rw [hsame] at hc
    exact (h.count hsame).trans hc
  · have hg := ha.good.coherent
    rwa [hmem] at hg

/-- The host refuses no protection asked for on the task's own space, and
the counter of the space in use at the end of an interrupt tells whether it
is the one the cache was filled from, unchanged. -/
def Detected (s : Cpu) : Event → Prop
  | .call op => World.Accepted s.mem s.world op
  | .resume =>
    (s.tlb.mem = s.mem ∧ (s.world.mem s.mem).changes = s.changes) ∨
      (s.world.mem s.mem).changes % 2 ^ 32 ≠ s.changes % 2 ^ 32
  | _ => True

theorem Inv.call {op : Memory.Op} {w' : World} (h : s.Inv) (hok : World.Accepted s.mem s.world op)
    (hown : ¬(s.running ∧ op.touches s.mem)) (hstep : s.world.step op = some w') :
    { s with world := w' : Cpu }.Inv := by
  have hw' := h.wf.step hstep
  obtain rfl : s.world.apply op = w' := by
    unfold World.step at hstep
    split at hstep <;> cases hstep
    rfl
  have hb := World.KeepsBlocks.apply s.world op
  have hn := World.apply_nextMem s.world op
  have hst := World.Stable.apply h.memLt hok
  have hkeep (hc : Coherent s.world s.mem s.tlb)
      (heq : ((s.world.apply op).mem s.mem).changes = (s.world.mem s.mem).changes) :
      Coherent (s.world.apply op) s.mem s.tlb := hc.keep h.wf hw' hb (hst.kept heq)
  refine ⟨hw', h.memLt.trans_le hn, h.tlbLt.trans_le hn, h.slots, h.same,
    fun hs ↦ (h.count hs).trans hst.mono, fun hrun ↦ ?_⟩
  by_cases hr : s.running
  · have ht : op.touches s.mem = false := by simpa [hr] using hown
    exact hkeep (h.coherent (.inl hr)) (by rw [World.apply_mem h.memLt ht])
  · obtain ⟨hs, hc⟩ := hrun.resolve_left hr
    have hle := h.count hs
    have hmono := hst.mono
    dsimp only at hc
    exact hkeep (h.coherent (.inr ⟨hs, by omega⟩)) (by omega)

theorem Inv.exec (h : s.Inv) (hr : s.running = false) : s.exec.Inv := by
  have hn : (s.world.memRelease s.mem).nextMem = s.world.nextMem :=
    (World.memRelease_frame (n := 0) (k := 0)).nextMem
  have hne : s.tlb.mem ≠ (s.world.memRelease s.mem).nextMem := by
    rw [hn]
    exact Nat.ne_of_lt h.tlbLt
  refine ⟨(h.wf.memRelease s.mem).memNew, Nat.lt_succ_self _, ?_, h.slots, fun hr' ↦ ?_,
    fun hs ↦ absurd hs hne, fun hrun ↦ ?_⟩
  · have hlt := h.tlbLt
    rw [← hn] at hlt
    exact Nat.lt_succ_of_lt hlt
  · exact absurd (hr.symm.trans hr') Bool.false_ne_true
  · rcases hrun with hr' | ⟨hs, -⟩
    · exact absurd (hr.symm.trans hr') Bool.false_ne_true
    · exact absurd hs hne

theorem Inv.resume (h : s.Inv) (hok : Detected s .resume) : s.resume.Inv := by
  unfold Cpu.resume
  dsimp only
  split
  · exact ⟨h.wf, h.memLt, h.memLt, tlbFlush_inSlot _, fun _ ↦ rfl, fun _ ↦ le_rfl,
      fun _ ↦ tlbFlush_coherent _ _ _⟩
  · rename_i hne
    obtain ⟨hs, hc⟩ := hok.resolve_right hne
    exact ⟨h.wf, h.memLt, h.memLt, h.slots, fun _ ↦ rfl, fun _ ↦ h.count hs,
      fun _ ↦ h.coherent (.inr ⟨hs, hc⟩)⟩

/-- One event keeps the invariant. -/
theorem Inv.step {ev : Event} (h : s.Inv) (hok : Detected s ev) (hstep : s.step ev = some t) :
    t.Inv := by
  cases ev with
  | readPtr addr =>
    simp only [Cpu.step, Option.ite_none_right_eq_some, Option.some.injEq] at hstep
    obtain ⟨hr, rfl⟩ := hstep
    exact h.advance hr ((h.good hr).tlbReadPtr addr)
  | writePtr addr =>
    simp only [Cpu.step, Option.ite_none_right_eq_some, Option.some.injEq] at hstep
    obtain ⟨hr, rfl⟩ := hstep
    exact h.advance hr ((h.good hr).tlbWritePtr addr)
  | read addr size =>
    simp only [Cpu.step, Option.ite_none_right_eq_some, Option.some.injEq] at hstep
    obtain ⟨hr, rfl⟩ := hstep
    exact h.advance hr ((h.good hr).tlbRead addr size)
  | write addr value =>
    simp only [Cpu.step, Option.ite_none_right_eq_some, Option.some.injEq] at hstep
    obtain ⟨hr, rfl⟩ := hstep
    exact h.advance hr ((h.good hr).tlbWrite addr value)
  | interrupt =>
    simp only [Cpu.step, Option.ite_none_right_eq_some, Option.some.injEq] at hstep
    obtain ⟨hr, rfl⟩ := hstep
    exact ⟨h.wf, h.memLt, h.tlbLt, h.slots, fun hr' ↦ absurd hr' Bool.false_ne_true, h.count,
      fun _ ↦ h.coherent (.inl hr)⟩
  | call op =>
    simp only [Cpu.step, Option.ite_none_left_eq_some, Option.map_eq_some_iff] at hstep
    obtain ⟨hown, w', hw', rfl⟩ := hstep
    exact h.call hok hown hw'
  | exec =>
    simp only [Cpu.step, Option.ite_none_left_eq_some, Option.some.injEq, not_or] at hstep
    obtain ⟨⟨hr, -⟩, rfl⟩ := hstep
    exact h.exec (Bool.eq_false_iff.mpr hr)
  | resume =>
    simp only [Cpu.step, Option.ite_none_left_eq_some, Option.some.injEq] at hstep
    obtain ⟨-, rfl⟩ := hstep
    exact h.resume hok

/-- Every hit of `__tlb_read_ptr` and `__tlb_write_ptr` is the pointer that
`mem_ptr` on the current address space gives. -/
theorem tlb_hit (hw : Reaches World.step (fun _ _ ↦ True) World.init w) (hm : w.inUse m)
    (ht : Reaches step Detected (start w m) t) (hr : t.running) (addr : Addr) :
    ((t.tlb.entries (tlbIndex addr)).page = tlbPage addr →
      t.world.memPtr t.mem addr .read =
        (t.world, some ((t.tlb.entries (tlbIndex addr)).ptr addr))) ∧
    ((t.tlb.entries (tlbIndex addr)).pageIfWritable = tlbPage addr →
      t.world.memPtr t.mem addr .write =
        (t.world, some ((t.tlb.entries (tlbIndex addr)).ptr addr))) := by
  have hinv : t.Inv := ht.invariant (start_inv (World.wf_of_reaches hw) hm.1)
    (fun _ _ _ h hok hs ↦ h.step hok hs)
  have hhit := (hinv.good hr).hit addr
  rwa [hinv.same hr] at hhit

/-- A page read once is hit by the next access to it. -/
theorem tlb_hit_onePage :
    ∃ t, (start World.onePage 0).step (.readPtr 0x10000#32) = some t ∧
      t.world.memPtr t.mem 0x10010#32 .read = (t.world, some ⟨0, 16⟩) := by
  have hm : World.onePage.inUse 0 := by decide
  refine ⟨_, rfl, ?_⟩
  refine (tlb_hit World.onePage_reaches hm
    (Reaches.start.next (a := .readPtr 0x10000#32) trivial rfl) rfl 0x10010#32).1 ?_
  decide

/-! A new address space whose counter is the remembered one. -/

theorem exec_mem (s : Cpu) : s.exec.world.mem s.exec.mem = Mem.empty := Function.update_self _ _ _

theorem memPtr_exec (s : Cpu) (addr : Addr) (type : Access) :
    (s.exec.world.memPtr s.exec.mem addr type).2 = none := by
  have hpt (p : ℕ) : s.exec.world.memPt s.exec.mem p = none := by
    rw [World.memPt, exec_mem]
    rfl
  have hg : s.exec.world.growsTo s.exec.mem (page addr) = false := by
    simp [World.growsTo, World.nextMapped, hpt]
  obtain h | ⟨e, he, -⟩ | ⟨e, he, -⟩ := World.memPtr_cases s.exec.world s.exec.mem addr type
  · rw [h]
  · rw [World.grow_of_not hg, hpt] at he
    cases he
  · rw [World.grow_of_not hg, hpt] at he
    cases he

theorem resume_exec (s : Cpu) (h : s.changes = 0) : s.exec.resume =
    { s.exec with running := true, tlb := { s.tlb with mem := s.exec.mem } } := by
  have hx : s.exec.changes = 0 := h
  have hc : (s.exec.world.mem s.exec.mem).changes % 2 ^ 32 = s.exec.changes % 2 ^ 32 := by
    rw [exec_mem, hx]
    rfl
  unfold resume
  dsimp only
  rw [if_neg (not_not.mpr hc)]
  rfl

/-- An `execve` in a task whose remembered counter is zero keeps the cache. -/
theorem exec_keeps_tlb (hr : s.running) (hu : s.world.inUse s.mem) (hc : s.changes = 0) :
    ∃ t, Isl.Lib.Run.exec step s [.interrupt, .exec, .resume] = some t ∧ t.running ∧
      t.tlb.entries = s.tlb.entries ∧ ∀ addr type, (t.world.memPtr t.mem addr type).2 = none := by
  let u : Cpu := { s with running := false }
  have hi : s.step .interrupt = some u := if_pos hr
  have he : u.step .exec = some u.exec := if_neg (by simpa [u] using hu)
  have hres : u.exec.step .resume = some u.exec.resume := rfl
  have hx := resume_exec u hc
  refine ⟨u.exec.resume, ?_, ?_, ?_, fun addr type ↦ ?_⟩
  · simp only [Isl.Lib.Run.exec, hi, he, hres, Option.bind_some]
  · rw [hx]
  · rw [hx]
  · rw [hx]
    exact memPtr_exec u addr type

/-- The counter of a task's first space is zero, and so is the one of the space
`execve` gives it: the page it has cached of the old one is still hit. -/
theorem exec_stale_hit :
    ∃ s t, (start World.onePage 0).step (.readPtr 0x10000#32) = some s ∧
      Isl.Lib.Run.exec step s [.interrupt, .exec, .resume] = some t ∧
      t.running ∧ (t.tlb.entries (tlbIndex 0x10000#32)).page = tlbPage 0x10000#32 ∧
      (t.tlb.entries (tlbIndex 0x10000#32)).ptr 0x10000#32 = ⟨0, 0⟩ ∧
      (t.world.memPtr t.mem 0x10000#32 .read).2 = none := by
  obtain ⟨s, hs, hr, hc, hu, hp, hq⟩ : ∃ s,
      (start World.onePage 0).step (.readPtr 0x10000#32) = some s ∧
      s.running = true ∧ s.changes = 0 ∧ s.world.inUse s.mem ∧
      (s.tlb.entries (tlbIndex 0x10000#32)).page = tlbPage 0x10000#32 ∧
      (s.tlb.entries (tlbIndex 0x10000#32)).ptr 0x10000#32 = ⟨0, 0⟩ :=
    ⟨_, rfl, rfl, rfl, by decide, by decide, by decide⟩
  obtain ⟨t, ht, hrt, htlb, hnone⟩ := exec_keeps_tlb hr hu hc
  refine ⟨s, t, hs, ht, hrt, ?_, ?_, hnone _ _⟩
  · rw [htlb, hp]
  · rw [htlb, hq]

end Cpu

end Isl.Emu
