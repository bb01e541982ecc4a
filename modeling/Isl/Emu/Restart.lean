import Isl.Emu.Compare
import Isl.Emu.MemWrite
import Isl.Emu.Prefixes
import Isl.Lib.Retry
import Mathlib.Algebra.Order.BigOperators.Group.Finset

/-!
`REP` of an instruction that moves, in a memory of which pages are missing. It is left at an
access that fails, and decoded anew once the page is there.
-/

namespace Isl.Emu

open Isl.Lib Interp

/-! What is claimed. -/

inductive MoveOp
  | movs
  | stos
  | lods
deriving DecidableEq

def MoveOp.str : MoveOp → Str
  | .movs => .movs
  | .stos => .stos
  | .lods => .lods

def MoveOp.opcode (z : ℕ) : MoveOp → BitVec 8
  | .movs => if z = 8 then 0xa4 else 0xa5
  | .stos => if z = 8 then 0xaa else 0xab
  | .lods => if z = 8 then 0xac else 0xad

/-- The instruction after prefixes that leave it the operand size of `cpu_step32`. -/
def MoveOp.code (ps : List Prefix) (z : ℕ) (op : MoveOp) : List (BitVec 8) :=
  ps.map Prefix.byte ++ [0xf3, op.opcode z]

def Perm.lacks : Perm → ℕ
  | .unmapped => 2
  | .readOnly => 1
  | .readWrite => 0

/-- A page of the memory is not accessible. -/
def GuestMem.Misses (g : GuestMem) : Prop := ∃ p < Memory.memPages, 0 < (g.perm p).lacks

/-- Pages are made accessible, one of them at least, and nothing else is changed. -/
structure Granted (m m' : Machine) : Prop where
  cpu : m'.cpu = m.cpu
  byte : m'.mem.byte = m.mem.byte
  keeps : ∀ p, (m'.mem.perm p).lacks ≤ (m.mem.perm p).lacks
  grants : ∃ p < Memory.memPages, (m'.mem.perm p).lacks < (m.mem.perm p).lacks

/-- With all of the memory accessible. -/
def GuestMem.opened (g : GuestMem) : GuestMem := { g with perm := fun _ ↦ .readWrite }

def Machine.opened (m : Machine) : Machine := { m with mem := m.mem.opened }

/-- The instruction is in the memory, in pages that may be missing still. -/
def MoveOp.Lies (ps : List Prefix) (z : ℕ) (m : Machine) (op : MoveOp) : Prop :=
  m.mem.opened.Holds m.cpu.eip (op.code ps z)

/-- An iteration of `REP`. -/
def MoveOp.iteration (z : ℕ) (op : MoveOp) : Op Unit := do
  Interp.str .zero z op.str
  modifyCpu fun cpu ↦ cpu.setReg .ecx (cpu.regs .ecx - 1)

/-- At the instruction, after `k` iterations. -/
structure MoveOp.LeftAfter (z k : ℕ) (m m' : Machine) (op : MoveOp) : Prop where
  count : k ≤ (m.cpu.regs .ecx).toNat
  eip : m'.cpu.eip = m.cpu.eip
  ecx : m'.cpu.regs .ecx = m.cpu.regs .ecx - BitVec.ofNat 32 k
  esi : m'.cpu.regs .esi =
    if op = .stos then m.cpu.regs .esi else m.cpu.regs .esi + advance z k m.cpu
  edi : m'.cpu.regs .edi =
    if op = .lods then m.cpu.regs .edi else m.cpu.regs .edi + advance z k m.cpu
  iterations : ∃ t, (op.iteration z).times k m.opened = .ok () t ∧
    m'.cpu = { t.cpu with segfaultAddr := m'.cpu.segfaultAddr } ∧ m'.mem.byte = t.mem.byte

/-! Memories of which one has all pages. -/

namespace GuestMem

variable {g g' : GuestMem} {addr : Dword} {w : ℕ} {v : BitVec w}

theorem tlbRead_opened (hbyte : g'.byte = g.byte) (hperm : ∀ p, g'.perm p = .readWrite) (hw : 8 ∣ w)
    (h : g.tlbRead addr w = some v) : g'.tlbRead addr w = some v := by
  rw [← h]
  refine tlbRead_congr fun i hi ↦ ?_
  have hlen : i < (Layout.leBytes (w / 8) v.toNat).length := by rwa [Layout.leBytes_length]
  have hload := holds_of_tlbRead h hw i hlen
  have hmapped : g.load (addr + BitVec.ofNat 32 i) = some (g.byte (addr + BitVec.ofNat 32 i)) := by
    rw [load] at hload ⊢
    split at hload
    · cases hload
    · rw [if_neg ‹_›]
  rw [hmapped, load, hperm, hbyte]
  rfl

theorem tlbWrite_opened (hbyte : g'.byte = g.byte) (hperm : ∀ p, g'.perm p = .readWrite)
    {g₁ : GuestMem} (h : g.tlbWrite addr v = some g₁) :
    ∃ g₁', g'.tlbWrite addr v = some g₁' ∧ g₁'.byte = g₁.byte ∧ g₁'.perm = g'.perm ∧
      g₁.perm = g.perm := by
  have hlen : (Layout.leBytes (w / 8) v.toNat).length = w / 8 := Layout.leBytes_length _ _
  have hw' : g'.writable addr (w / 8) := fun i _ ↦ hperm _
  rw [tlbWrite] at h
  split at h
  case isFalse => cases h
  rename_i hw
  cases h
  refine ⟨_, if_pos hw', ?_, perm_userWrite _ _ _, perm_userWrite _ _ _⟩
  exact byte_userWrite hbyte (hlen.symm ▸ hw') (hlen.symm ▸ hw)

/-- What fails an access is a page. -/
theorem misses_of_perm (addr : Dword) (h : g.perm (Memory.page addr) ≠ .readWrite) : g.Misses := by
  refine ⟨Memory.page addr, ?_, ?_⟩
  · have hlt := addr.isLt
    change addr.toNat / 4096 < 1048576
    omega
  · revert h
    cases g.perm (Memory.page addr) <;> simp [Perm.lacks]

theorem misses_of_load (h : g.load addr = none) : g.Misses := by
  refine misses_of_perm addr fun hperm ↦ ?_
  rw [load, hperm] at h
  cases h

theorem misses_of_loads {n : ℕ} (h : g.loads addr n = none) : g.Misses := by
  induction n generalizing addr with
  | zero => cases h
  | succ n ih =>
    cases hload : g.load addr with
    | none => exact misses_of_load hload
    | some b =>
      cases hrest : g.loads (addr + 1) n with
      | none => exact ih hrest
      | some bs =>
        rw [loads, hload, hrest] at h
        cases h

theorem misses_of_read (h : g.tlbRead addr w = none) : g.Misses :=
  misses_of_loads (Option.map_eq_none_iff.mp h)

theorem misses_of_write (h : g.tlbWrite addr v = none) : g.Misses := by
  by_contra hall
  have hw : g.writable addr (w / 8) := fun i _ ↦ by
    by_contra hperm
    exact hall (misses_of_perm _ hperm)
  rw [tlbWrite, if_pos hw] at h
  cases h

theorem not_misses_opened (g : GuestMem) : ¬g.opened.Misses := by
  rintro ⟨p, -, hp⟩
  exact absurd hp (Nat.lt_irrefl 0)

end GuestMem

/-! One iteration. -/

/-- Apart from what an access that fails changes. -/
def CpuState.bare (cpu : CpuState) : CpuState := { cpu with eip := 0, segfaultAddr := 0 }

/-- The other machine has the pages that this one may be missing. -/
structure ButPages (m t : Machine) : Prop where
  cpu : t.cpu.bare = m.cpu.bare
  byte : t.mem.byte = m.mem.byte
  perm : ∀ p, t.mem.perm p = .readWrite

/-- What some iterations do to the registers, and what they keep. -/
structure MoveOp.Moved (z k : ℕ) (m m' : Machine) (op : MoveOp) : Prop where
  perm : m'.mem.perm = m.mem.perm
  eip : m'.cpu.eip = m.cpu.eip
  eflags : m'.cpu.eflags = m.cpu.eflags
  ecx : m'.cpu.regs .ecx = m.cpu.regs .ecx - BitVec.ofNat 32 k
  esi : m'.cpu.regs .esi =
    if op = .stos then m.cpu.regs .esi else m.cpu.regs .esi + advance z k m.cpu
  edi : m'.cpu.regs .edi =
    if op = .lods then m.cpu.regs .edi else m.cpu.regs .edi + advance z k m.cpu

section

variable {z j k : ℕ} {op : MoveOp} {m m' m₁ t : Machine}

theorem ButPages.mapCpu (h : ButPages m t) {g : CpuState → CpuState}
    (hg : ∀ cpu, (g cpu).bare = (g cpu.bare).bare) : ButPages (m.mapCpu g) (t.mapCpu g) := by
  refine ⟨?_, h.byte, h.perm⟩
  have hbare := congrArg (fun cpu ↦ (g cpu).bare) h.cpu
  exact (hg _).trans (hbare.trans (hg _).symm)

theorem ButPages.regs (h : ButPages m t) : t.cpu.regs = m.cpu.regs :=
  show t.cpu.bare.regs = m.cpu.bare.regs from congrArg CpuState.regs h.cpu

theorem ButPages.withMem (h : ButPages m t) {g g' : GuestMem} (hbyte : g'.byte = g.byte)
    (hperm : g'.perm = t.mem.perm) : ButPages { m with mem := g } { t with mem := g' } :=
  ⟨h.cpu, hbyte, fun p ↦ (congrFun hperm p).trans (h.perm p)⟩

def Machine.bumped (z : ℕ) (r : Reg32) (m : Machine) : Machine :=
  m.mapCpu fun cpu ↦ cpu.setReg r (cpu.regs r + advance z 1 cpu)

def Machine.counted (m : Machine) : Machine :=
  m.mapCpu fun cpu ↦ cpu.setReg .ecx (cpu.regs .ecx - 1)

theorem ButPages.bumped (h : ButPages m t) (r : Reg32) : ButPages (m.bumped z r) (t.bumped z r) :=
  h.mapCpu fun _ ↦ rfl

theorem ButPages.counted (h : ButPages m t) : ButPages m.counted t.counted := h.mapCpu fun _ ↦ rfl

section

variable {g : GuestMem} {v : BitVec z}

theorem movs_ok (hread : m.mem.tlbRead (m.cpu.regs .esi) z = some v)
    (hwrite : m.mem.tlbWrite (m.cpu.regs .edi) v = some g) : MoveOp.movs.iteration z m =
      .ok () ((({ m with mem := g } : Machine).bumped z .esi).bumped z .edi).counted := by
  have hsi := bump_apply .esi z { m with mem := g }
  have hdi := bump_apply .edi z (({ m with mem := g } : Machine).bumped z .esi)
  exact Exec.bind_eq (Exec.bind_eq rfl (Exec.bind_eq (memRead_ok hread)
    (Exec.bind_eq (memWrite_ok hwrite) (Exec.bind_eq hsi hdi)))) rfl

theorem stos_ok
    (hwrite : m.mem.tlbWrite (m.cpu.regs .edi) ((m.cpu.regs .eax).setWidth z) = some g) :
    MoveOp.stos.iteration z m =
      .ok () (({ m with mem := g } : Machine).bumped z .edi).counted := by
  have hbump := bump_apply .edi z { m with mem := g }
  exact Exec.bind_eq (Exec.bind_eq rfl (Exec.bind_eq rfl (Exec.bind_eq (memWrite_ok hwrite) hbump)))
    rfl

theorem lods_ok (hread : m.mem.tlbRead (m.cpu.regs .esi) z = some v) :
    MoveOp.lods.iteration z m =
      .ok () ((m.mapCpu fun cpu ↦ cpu.setNamed .eax v).bumped z .esi).counted := by
  have hbump := bump_apply .esi z (m.mapCpu fun cpu ↦ cpu.setNamed .eax v)
  exact Exec.bind_eq (Exec.bind_eq rfl (Exec.bind_eq (memRead_ok hread) (Exec.bind_eq rfl hbump)))
    rfl

/-- What is read with a page missing is read with all of them. -/
theorem ButPages.read (hz : z = 8 ∨ z = 32) (hpages : ButPages m t) {r : Reg32}
    (h : m.mem.tlbRead (m.cpu.regs r) z = some v) : t.mem.tlbRead (t.cpu.regs r) z = some v := by
  rw [hpages.regs]
  exact GuestMem.tlbRead_opened hpages.byte hpages.perm (by omega) h

theorem ButPages.write (hpages : ButPages m t) {r : Reg32}
    (h : m.mem.tlbWrite (m.cpu.regs r) v = some g) :
    ∃ g', t.mem.tlbWrite (t.cpu.regs r) v = some g' ∧
      ButPages { m with mem := g } { t with mem := g' } ∧ g.perm = m.mem.perm := by
  obtain ⟨g', hg', hbyte, hperm', hperm⟩ := GuestMem.tlbWrite_opened hpages.byte hpages.perm h
  rw [hpages.regs]
  exact ⟨g', hg', hpages.withMem hbyte hperm', hperm⟩

end

/-- An iteration is made whole or not at all, and alike in both memories. -/
theorem iteration_cases (hz : z = 8 ∨ z = 32) (op : MoveOp) (hpages : ButPages m t) :
    (∃ addr, op.iteration z m = .stop (.gpf addr) m ∧ m.mem.Misses) ∨
    ∃ m' t', op.iteration z m = .ok () m' ∧ op.iteration z t = .ok () t' ∧ ButPages m' t' ∧
      op.Moved z 1 m m' := by
  cases op with
  | movs =>
    cases hread : m.mem.tlbRead (m.cpu.regs .esi) z with
    | none =>
      exact .inl ⟨_, Exec.bind_stop (Exec.bind_stop (memRead_stop hread) _) _,
        GuestMem.misses_of_read hread⟩
    | some v =>
      cases hwrite : m.mem.tlbWrite (m.cpu.regs .edi) v with
      | none =>
        refine .inl ⟨m.cpu.regs .edi, Exec.bind_stop (Exec.bind_eq rfl ?_) _,
          GuestMem.misses_of_write hwrite⟩
        exact Exec.bind_eq (memRead_ok hread) (Exec.bind_stop (memWrite_stop hwrite) _)
      | some g =>
        obtain ⟨g', hwrite', hpages', hperm⟩ := hpages.write hwrite
        refine .inr ⟨_, _, movs_ok hread hwrite, movs_ok (hpages.read hz hread) hwrite',
          ((hpages'.bumped .esi).bumped .edi).counted, ?_⟩
        exact ⟨hperm, rfl, rfl, rfl, rfl, rfl⟩
  | stos =>
    cases hwrite : m.mem.tlbWrite (m.cpu.regs .edi) ((m.cpu.regs .eax).setWidth z) with
    | none =>
      refine .inl ⟨m.cpu.regs .edi, Exec.bind_stop (Exec.bind_eq rfl ?_) _,
        GuestMem.misses_of_write hwrite⟩
      exact Exec.bind_eq rfl (Exec.bind_stop (memWrite_stop hwrite) _)
    | some g =>
      obtain ⟨g', hwrite', hpages', hperm⟩ := hpages.write hwrite
      rw [← hpages.regs] at hwrite'
      refine .inr ⟨_, _, stos_ok hwrite, stos_ok hwrite', (hpages'.bumped .edi).counted, ?_⟩
      exact ⟨hperm, rfl, rfl, rfl, rfl, rfl⟩
  | lods =>
    cases hread : m.mem.tlbRead (m.cpu.regs .esi) z with
    | none =>
      exact .inl ⟨_, Exec.bind_stop (Exec.bind_stop (memRead_stop hread) _) _,
        GuestMem.misses_of_read hread⟩
    | some v =>
      have hset : ButPages (m.mapCpu fun cpu ↦ cpu.setNamed .eax v)
          (t.mapCpu fun cpu ↦ cpu.setNamed .eax v) := hpages.mapCpu fun _ ↦ rfl
      refine .inr ⟨_, _, lods_ok hread, lods_ok (hpages.read hz hread),
        (hset.bumped .esi).counted, ?_⟩
      exact ⟨rfl, rfl, rfl, rfl, rfl, rfl⟩

/-! The loop. -/

theorem ButPages.opened (m : Machine) : ButPages m m.opened := ⟨rfl, rfl, fun _ ↦ rfl⟩

/-- Why an iteration is not made. -/
def Faults (i : Stop) (m : Machine) : Prop := (∃ addr, i = .gpf addr) ∧ m.mem.Misses

theorem iteration_follows (hz : z = 8 ∨ z = 32) (op : MoveOp) :
    Follows Faults ButPages (op.iteration z) (op.iteration z) := by
  intro m t hpages
  rcases iteration_cases hz op hpages with ⟨addr, hstop, hmisses⟩ | ⟨m', t', hm, ht, hpages', -⟩
  · exact .inl ⟨_, ⟨⟨addr, rfl⟩, hmisses⟩, hstop⟩
  · exact .inr ⟨m', t', hm, ht, hpages'⟩

theorem MoveOp.Moved.refl (z : ℕ) (m : Machine) (op : MoveOp) : op.Moved z 0 m m := by
  constructor
  case ecx => exact (BitVec.sub_zero _).symm
  case esi => rw [advance_zero, BitVec.add_zero, ite_self]
  case edi => rw [advance_zero, BitVec.add_zero, ite_self]
  all_goals rfl

theorem MoveOp.Moved.trans (h : op.Moved z j m m₁) (h' : op.Moved z k m₁ m') :
    op.Moved z (j + k) m m' := by
  have hadvance : advance z (j + k) m.cpu = advance z j m.cpu + advance z k m₁.cpu := by
    rw [advance_add, advance_congr h.eflags]
  constructor
  case ecx => rw [h'.ecx, h.ecx, BitVec.sub_sub, ← BitVec.ofNat_add]
  case esi =>
    rw [h'.esi, h.esi, hadvance, ← BitVec.add_assoc]
    split <;> rfl
  case edi =>
    rw [h'.edi, h.edi, hadvance, ← BitVec.add_assoc]
    split <;> rfl
  case perm => exact h'.perm.trans h.perm
  case eip => exact h'.eip.trans h.eip
  case eflags => exact h'.eflags.trans h.eflags

theorem moved_of_iteration (hz : z = 8 ∨ z = 32) (h : op.iteration z m = .ok () m') :
    op.Moved z 1 m m' := by
  rcases iteration_cases hz op (.opened m) with ⟨addr, hstop, -⟩ | ⟨m₁, t, hm, -, -, hmoved⟩
  · rw [hstop] at h
    cases h
  · rw [hm] at h
    cases h
    exact hmoved

theorem moved_of_times (hz : z = 8 ∨ z = 32) (h : (op.iteration z).times k m = .ok () m') :
    op.Moved z k m m' := by
  induction k generalizing m with
  | zero =>
    cases h
    exact .refl z _ op
  | succ k ih =>
    obtain ⟨_, m₁, hfirst, hrest⟩ := Exec.bind_eq_ok.mp h
    rw [Nat.add_comm]
    exact (moved_of_iteration hz hfirst).trans (ih hrest)

/-- `REP` is as many iterations as `ecx` says. -/
theorem repLoop_eq_times (hz : z = 8 ∨ z = 32) (l : Locals) (op : MoveOp) {n : ℕ}
    (hn : (m.cpu.regs .ecx).toNat = n) :
    repLoop l .rep op.str z n m = (op.iteration z).times n m := by
  induction n generalizing m with
  | zero => rfl
  | succ n ih =>
    have hne : m.cpu.regs .ecx ≠ 0 := by
      intro h
      rw [h] at hn
      simp at hn
    have hstr : Interp.str l z op.str = Interp.str .zero z op.str := by cases op <;> rfl
    have hloop : repLoop l .rep op.str z (n + 1) m =
        (op.iteration z >>= fun _ ↦ repLoop l .rep op.str z n) m := by
      refine (Exec.get_bind_apply _).trans ((congrFun (if_pos hne) m).trans ?_)
      rw [MoveOp.iteration, Exec.bind_assoc, hstr]
      rfl
    rw [hloop, Exec.times_succ, Exec.bind_apply, Exec.bind_apply]
    cases hm : op.iteration z m with
    | ok a m₁ =>
      refine ih ?_
      rw [(moved_of_iteration hz hm).ecx, BitVec.toNat_sub_of_le, hn]
      · rfl
      · rw [BitVec.le_def, hn]
        exact Nat.succ_le_succ (Nat.zero_le n)
    | _ => rfl

end

/-! The decoder, in a memory of which pages are missing. -/

section

variable {g : GuestMem} {addr : Dword} {b : BitVec 8} {bs : List (BitVec 8)} {cpu : CpuState}
  {ps : List Prefix}

theorem GuestMem.load_cases (h : g.opened.Holds addr (b :: bs)) :
    g.load addr = none ∨ g.load addr = some b := by
  have hb : some (g.byte addr) = some b := (GuestMem.holds_cons.mp h).1
  rw [GuestMem.load, hb]
  split
  · exact .inl rfl
  · exact .inr rfl

theorem restart_none {f : Front} (h : g.load f.ip = none) : restart g cpu f = .inr (f, none) := by
  unfold restart
  rw [fetch, GuestMem.tlbRead_byte, h]

theorem past_savedIp (cpu : CpuState) {x : Prefix} (hx : x ≠ .opSize) (f : Front) :
    (f.past cpu x).savedIp = f.savedIp ∧ (f.past cpu x).oz = f.oz := by
  cases x with
  | opSize => exact absurd rfl hx
  | _ => exact ⟨rfl, rfl⟩

/-- A prefix or `0xf3` cannot be read, or all of them have been. -/
theorem run_rep (cpu : CpuState) (f : Front) (hps : .opSize ∉ ps) (hlock : f.lock = false)
    (h : g.opened.Holds f.ip (ps.map Prefix.byte ++ 0xf3 :: bs)) {n : ℕ} (hn : ps.length < n) :
    ∃ f' : Front, f'.savedIp = f.savedIp ∧
      (Loop.run (restart g cpu) n f = some (f', none) ∧ g.Misses ∨
        Loop.run (restart g cpu) n f = some (f', some 0xf3) ∧ f'.lock = false ∧ f'.oz = f.oz ∧
          f'.ip = f.ip + BitVec.ofNat 32 (ps.length + 1) ∧ g.opened.Holds f'.ip bs) := by
  induction ps generalizing f n with
  | nil =>
    obtain ⟨n, rfl⟩ := Nat.exists_eq_succ_of_ne_zero (Nat.ne_zero_of_lt hn)
    have hrep (x : Prefix) : (0xf3 : BitVec 8) ≠ x.byte := by cases x <;> decide
    rcases GuestMem.load_cases h with hload | hload
    · refine ⟨f, rfl, .inl ⟨?_, GuestMem.misses_of_load hload⟩⟩
      rw [Loop.run, restart_none hload]
    · refine ⟨f.next, rfl, .inr ⟨?_, hlock, rfl, rfl, (GuestMem.holds_cons.mp h).2⟩⟩
      rw [Loop.run, restart_last hrep (by decide) hlock hload]
  | cons x ps ih =>
    obtain ⟨n, rfl⟩ := Nat.exists_eq_succ_of_ne_zero (Nat.ne_zero_of_lt hn)
    obtain ⟨hx, hps'⟩ := not_or.mp (mt List.mem_cons.mpr hps)
    obtain ⟨hsaved, hoz⟩ := past_savedIp cpu (Ne.symm hx) f
    rcases GuestMem.load_cases h with hload | hload
    · refine ⟨f, rfl, .inl ⟨?_, GuestMem.misses_of_load hload⟩⟩
      rw [Loop.run, restart_none hload]
    · have hrest : g.opened.Holds (f.past cpu x).ip (ps.map Prefix.byte ++ 0xf3 :: bs) := by
        rw [past_ip]
        exact (GuestMem.holds_cons.mp h).2
      have hrun : Loop.run (restart g cpu) (n + 1) f = Loop.run (restart g cpu) n (f.past cpu x) := by
        rw [Loop.run, restart_prefix x hlock hload]
      obtain ⟨f', hsaved', hf'⟩ := ih (f.past cpu x) hps' (past_lock x hlock) hrest (Nat.lt_of_succ_lt_succ hn)
      rw [← hrun, hoz, past_ip, GuestMem.add_one_add] at hf'
      exact ⟨f', hsaved'.trans hsaved, hf'⟩

theorem decode_rep {f : Front} (hlock : f.lock = false) :
    f.decode g cpu (some 0xf3) = repz g cpu f.oz (.start f) := by
  unfold Front.decode
  rw [hlock]
  rfl

theorem repz_none {oz : ℕ} {c : Cursor} (h : g.load c.ip = none) :
    repz g cpu oz c = .error .fetch := by
  have hread : readInsn g c = .error .fetch := by
    rw [readInsn, readBits, fetch, GuestMem.tlbRead_byte, h]
  change (readInsn g c >>= _) = _
  rw [hread]
  rfl

theorem repz_move {z : ℕ} (hz : z = 8 ∨ z = 32) {op : MoveOp} {c : Cursor}
    (h : g.load c.ip = some (op.opcode z)) :
    repz g cpu 32 c = .ok (.repStr .rep op.str z, { c with ip := c.ip + 1 }) := by
  have hread : readInsn g c = .ok (op.opcode z, { c with ip := c.ip + 1 }) := by
    rw [readInsn, readBits, fetch_byte_of_load h]
  change (readInsn g c >>= _) = _
  rw [hread]
  rcases hz with rfl | rfl <;> cases op <;> rfl

theorem step_rep {z : ℕ} (hz : z = 8 ∨ z = 32) {op : MoveOp} {f : Front} (hlock : f.lock = false)
    (hoz : f.oz = 32) (hcode : g.opened.Holds f.ip [op.opcode z]) (h : Host) (m : Machine) :
    (f.step h g (some 0xf3) m = m.finish f.savedIp .fetch ∧ g.Misses) ∨
    ∃ l, f.step h g (some 0xf3) m =
      returned f.savedIp (repStr l .rep op.str z (m.withEip (f.ip + 1))) := by
  unfold Front.step
  rw [decode_rep hlock, hoz]
  rcases GuestMem.load_cases hcode with hload | hload
  · refine .inl ⟨?_, GuestMem.misses_of_load hload⟩
    rw [repz_none hload]
  · refine .inr ⟨⟨32, f.addr, (Cursor.start f).modrm, 0⟩, ?_⟩
    rw [repz_move hz hload]
    rfl

/-- The instruction is run if it can be read. -/
theorem cpuStep32_rep (h : Host) (hps : .opSize ∉ ps) {z : ℕ} (hz : z = 8 ∨ z = 32) {op : MoveOp}
    {m : Machine} (hcode : op.Lies ps z m) :
    (cpuStep32 h m = m.finish m.cpu.eip .fetch ∧ m.mem.Misses) ∨
    ∃ l, cpuStep32 h m = returned m.cpu.eip (repStr l .rep op.str z
      (m.withEip (m.cpu.eip + BitVec.ofNat 32 (op.code ps z).length))) := by
  have hrep (x : Prefix) : (0xf3 : BitVec 8) ≠ x.byte := by cases x <;> decide
  obtain ⟨f, hsaved, hrun⟩ := run_rep m.cpu (.enter 32 m.cpu.eip) hps rfl hcode
    (length_lt_of_last hrep hcode)
  have hsaved' : f.savedIp = m.cpu.eip := hsaved
  rcases hrun with ⟨hrun, hmisses⟩ | ⟨hrun, hlock, hoz, hip, hlast⟩
  · have hstep : cpuStep32 h m = f.step h m.mem none m := by
      rw [cpuStep32, cpuStepOn, hrun]
    refine .inl ⟨hstep.trans ?_, hmisses⟩
    rw [← hsaved']
    rfl
  · have hstep : cpuStep32 h m = f.step h m.mem (some 0xf3) m := by
      rw [cpuStep32, cpuStepOn, hrun]
    have hend : f.ip + 1 = m.cpu.eip + BitVec.ofNat 32 (op.code ps z).length := by
      have hlen : (op.code ps z).length = ps.length + 1 + 1 := by
        rw [MoveOp.code, List.length_append, List.length_map]
        rfl
      rw [hip, hlen, BitVec.ofNat_add (ps.length + 1) 1, ← BitVec.add_assoc]
      rfl
    rw [hstep, ← hend, ← hsaved']
    exact step_rep hz hlock hoz hlast h m

end

/-! Attempts. -/

section

variable {ps : List Prefix} {z k : ℕ} {op : MoveOp} {m m' m₁ t : Machine}

/-- An attempt gets some iterations further than a machine with all pages would be, or
ends. -/
theorem attempt_cases (h : Host) (hps : .opSize ∉ ps) (hz : z = 8 ∨ z = 32) (hcode : op.Lies ps z m)
    (hpages : ButPages m t) :
    (∃ k ≤ (m.cpu.regs .ecx).toNat, ∃ m' t', cpuStep32 h m = .stop intGpf m' ∧
      (op.iteration z).times k t = .ok () t' ∧ ButPages m' t' ∧ m'.mem.perm = m.mem.perm ∧
      m'.cpu.eip = m.cpu.eip ∧ m'.mem.Misses) ∨
    ∃ m' t', cpuStep32 h m = .ok () m' ∧
      (op.iteration z).times (m.cpu.regs .ecx).toNat t = .ok () t' ∧ ButPages m' t' ∧
      m'.cpu.eip = m.cpu.eip + BitVec.ofNat 32 (op.code ps z).length := by
  rcases cpuStep32_rep h hps hz hcode with ⟨hstep, hmisses⟩ | ⟨l, hstep⟩
  · exact .inl ⟨0, Nat.zero_le _, _, t, hstep, rfl, ⟨hpages.cpu, hpages.byte, hpages.perm⟩, rfl,
      rfl, hmisses⟩
  · obtain ⟨m₁, hm₁⟩ : ∃ m₁, m₁ = m.withEip (m.cpu.eip + BitVec.ofNat 32 (op.code ps z).length) :=
      ⟨_, rfl⟩
    have hpages₁ : ButPages m₁ t := by
      rw [hm₁]
      exact ⟨hpages.cpu, hpages.byte, hpages.perm⟩
    have hloop : repStr l .rep op.str z m₁ = (op.iteration z).times (m.cpu.regs .ecx).toNat m₁ := by
      refine (Exec.get_bind_apply _).trans ?_
      rw [repLoop_eq_times hz l op rfl, hm₁]
      rfl
    rw [← hm₁, hloop] at hstep
    rcases (iteration_follows hz op).times _ hpages₁ with
      ⟨k, hk, i, m', t', ⟨⟨addr, rfl⟩, hmisses⟩, hstop, hm, ht, hpages'⟩ | ⟨m', t', hm, ht, hpages'⟩
    · rw [hstop] at hstep
      have hperm : m'.mem.perm = m.mem.perm := by
        rw [(moved_of_times hz hm).perm, hm₁]
        rfl
      exact .inl ⟨k, hk, _, t', hstep, ht, ⟨hpages'.cpu, hpages'.byte, hpages'.perm⟩, hperm, rfl,
        hmisses⟩
    · rw [hm] at hstep
      refine .inr ⟨m', t', hstep, ht, hpages', ?_⟩
      rw [(moved_of_times hz hm).eip, hm₁]
      rfl

/-- On the way, where the machine with all pages is after `k` iterations. -/
structure MoveOp.Behind (z k : ℕ) (m t m' : Machine) (op : MoveOp) : Prop where
  count : k ≤ (m.cpu.regs .ecx).toNat
  run : (op.iteration z).times k m.opened = .ok () t
  pages : ButPages m' t
  eip : m'.cpu.eip = m.cpu.eip

theorem MoveOp.Behind.start (z : ℕ) (m : Machine) (op : MoveOp) :
    op.Behind z 0 m m.opened m := ⟨Nat.zero_le _, rfl, .opened m, rfl⟩

theorem MoveOp.Behind.granted (h : op.Behind z k m t m₁) (hg : Granted m₁ m') :
    op.Behind z k m t m' := by
  obtain ⟨hcount, hrun, ⟨hcpu, hbyte, hperm⟩, heip⟩ := h
  rw [← hg.cpu] at hcpu heip
  exact ⟨hcount, hrun, ⟨hcpu, hbyte.trans hg.byte.symm, hperm⟩, heip⟩

theorem bare_eq {cpu cpu' : CpuState} (h : cpu.bare = cpu'.bare) (heip : cpu.eip = cpu'.eip) :
    cpu = { cpu' with segfaultAddr := cpu.segfaultAddr } := by
  calc cpu = { cpu.bare with eip := cpu.eip, segfaultAddr := cpu.segfaultAddr } := rfl
    _ = { cpu'.bare with eip := cpu'.eip, segfaultAddr := cpu.segfaultAddr } := by rw [h, heip]
    _ = { cpu' with segfaultAddr := cpu.segfaultAddr } := rfl

theorem MoveOp.Behind.leftAfter (hz : z = 8 ∨ z = 32) (h : op.Behind z k m t m') :
    op.LeftAfter z k m m' := by
  obtain ⟨hcount, hrun, hpages, heip⟩ := h
  have hmoved := moved_of_times hz hrun
  have hregs (r : Reg32) : m'.cpu.regs r = t.cpu.regs r := by rw [hpages.regs]
  refine ⟨hcount, heip, ?_, ?_, ?_, t, hrun, ?_, hpages.byte.symm⟩
  · exact (hregs _).trans hmoved.ecx
  · exact (hregs _).trans hmoved.esi
  · exact (hregs _).trans hmoved.edi
  · exact bare_eq hpages.cpu.symm (heip.trans hmoved.eip.symm)

theorem MoveOp.Behind.attempt (h : Host) (hps : .opSize ∉ ps) (hz : z = 8 ∨ z = 32)
    (hbehind : op.Behind z k m t m₁) (hcode : op.Lies ps z m₁) :
    (∃ k t' m₂, cpuStep32 h m₁ = .stop intGpf m₂ ∧ op.Behind z k m t' m₂ ∧
      m₂.mem.perm = m₁.mem.perm ∧ m₂.mem.Misses) ∨
    ∃ t' m₂, cpuStep32 h m₁ = .ok () m₂ ∧
      (op.iteration z).times (m.cpu.regs .ecx).toNat m.opened = .ok () t' ∧ ButPages m₂ t' ∧
      m₂.cpu.eip = m.cpu.eip + BitVec.ofNat 32 (op.code ps z).length := by
  obtain ⟨hcount, hrun, hpages, heip⟩ := hbehind
  have hleft : (m₁.cpu.regs .ecx).toNat = (m.cpu.regs .ecx).toNat - k := by
    have hecx : m₁.cpu.regs .ecx = m.cpu.regs .ecx - BitVec.ofNat 32 k := by
      rw [← hpages.regs]
      exact (moved_of_times hz hrun).ecx
    have hk : (BitVec.ofNat 32 k).toNat = k := by
      rw [BitVec.toNat_ofNat, Nat.mod_eq_of_lt]
      exact Nat.lt_of_le_of_lt hcount (BitVec.isLt _)
    rw [hecx, BitVec.toNat_sub_of_le, hk]
    rwa [BitVec.le_def, hk]
  rcases attempt_cases h hps hz hcode hpages with
    ⟨j, hj, m₂, t', hstep, ht, hpages', hperm, heip', hmisses⟩ | ⟨m₂, t', hstep, ht, hpages', heip'⟩
  · refine .inl ⟨k + j, t', m₂, hstep, ⟨by omega, ?_, hpages', heip'.trans heip⟩, hperm, hmisses⟩
    exact (Exec.times_add hrun j).trans ht
  · refine .inr ⟨t', m₂, hstep, ?_, hpages', by rw [heip', heip]⟩
    have hall : (m.cpu.regs .ecx).toNat = k + (m₁.cpu.regs .ecx).toNat := by omega
    rw [hall]
    exact (Exec.times_add hrun _).trans ht

/-- How much of the memory is not accessible. -/
def Machine.lacks (m : Machine) : ℕ :=
  ∑ p ∈ Finset.range Memory.memPages, (m.mem.perm p).lacks

theorem Granted.lacks_lt (hg : Granted m m') : m'.lacks < m.lacks := by
  obtain ⟨p, hp, hlt⟩ := hg.grants
  exact Finset.sum_lt_sum (fun q _ ↦ hg.keeps q) ⟨p, Finset.mem_range.mpr hp, hlt⟩

theorem lacks_le (m : Machine) : m.lacks ≤ 2 * Memory.memPages := by
  have hpage : ∀ p ∈ Finset.range Memory.memPages, (m.mem.perm p).lacks ≤ 2 := fun p _ ↦ by
    cases m.mem.perm p <;> simp [Perm.lacks]
  refine (Finset.sum_le_card_nsmul _ _ _ hpage).trans ?_
  rw [Finset.card_range]
  exact Nat.le_of_eq (Nat.mul_comm _ _)

/-- A fault can always be answered. -/
theorem granted_opened (h : m.mem.Misses) : Granted m m.opened := by
  obtain ⟨p, hp, hlacks⟩ := h
  exact ⟨rfl, rfl, fun _ ↦ Nat.zero_le _, p, hp, hlacks⟩

/-- What is supplied after a fault: pages, with the instruction still in place. -/
def MoveOp.Supplied (ps : List Prefix) (z : ℕ) (op : MoveOp) (m m' : Machine) : Prop :=
  Granted m m' ∧ op.Lies ps z m'

/-- In a machine from which an attempt is made. -/
def MoveOp.Underway (ps : List Prefix) (z : ℕ) (op : MoveOp) (m m' : Machine) : Prop :=
  ∃ k t, op.Lies ps z m' ∧ op.Behind z k m t m'

theorem underway_next (h : Host) (hps : .opSize ∉ ps) (hz : z = 8 ∨ z = 32) {i : ℕ} {m₂ m₃ : Machine}
    (hway : op.Underway ps z m m₁) (hstop : cpuStep32 h m₁ = .stop i m₂)
    (hsupplied : op.Supplied ps z m₂ m₃) :
    op.Underway ps z m m₃ ∧ m₃.lacks < m₁.lacks := by
  obtain ⟨k, t, hlies, hbehind⟩ := hway
  obtain ⟨hgranted, hlies'⟩ := hsupplied
  rcases hbehind.attempt h hps hz hlies with
    ⟨k', t', m₂', hstop', hbehind', hperm, -⟩ | ⟨t', m₂', hok, -⟩
  · rw [hstop'] at hstop
    cases hstop
    refine ⟨⟨k', t', hlies', hbehind'.granted hgranted⟩, hgranted.lacks_lt.trans_eq ?_⟩
    rw [Machine.lacks, hperm, Machine.lacks]
  · rw [hok] at hstop
    cases hstop

theorem retried_underway (h : Host) (hps : .opSize ∉ ps) (hz : z = 8 ∨ z = 32) {n : ℕ}
    (hcode : op.Lies ps z m) (hrun : Retried (cpuStep32 h) (op.Supplied ps z) m n m') :
    op.Underway ps z m m' ∧ n + m'.lacks ≤ m.lacks := by
  have hstart : op.Underway ps z m m := ⟨0, _, hcode, .start z m op⟩
  have hnext (m₁ : Machine) (i : ℕ) (m₂ m₃ : Machine) (hway : op.Underway ps z m m₁)
      (hstop : cpuStep32 h m₁ = .stop i m₂) (hsupplied : op.Supplied ps z m₂ m₃) :=
    underway_next h hps hz hway hstop hsupplied
  constructor
  · exact hrun.invariant hstart fun _ _ _ _ hp hstop hs ↦ (hnext _ _ _ _ hp hstop hs).1
  · exact hrun.count_le Machine.lacks hstart
      (fun _ _ _ _ hp hstop hs ↦ (hnext _ _ _ _ hp hstop hs).1)
      fun _ _ _ _ hp hstop hs ↦ (hnext _ _ _ _ hp hstop hs).2

/-- Attempts that are repeated as pages are supplied, with the instruction in place each
time. There is an end of them, each leaves a whole number of iterations done, and the last
has the result of one attempt with all pages. -/
theorem rep_retries (h : Host) (ps : List Prefix) (hps : .opSize ∉ ps) {z : ℕ} (hz : z = 8 ∨ z = 32)
    (op : MoveOp) (m : Machine) (hcode : op.Lies ps z m) (n : ℕ) (m₁ : Machine)
    (hrun : Retried (cpuStep32 h) (op.Supplied ps z) m n m₁) :
    n ≤ 2 * Memory.memPages ∧
    ((∃ k m₂, cpuStep32 h m₁ = .stop intGpf m₂ ∧ op.LeftAfter z k m m₂ ∧ m₂.mem.Misses) ∨
      ∃ m₂ m', cpuStep32 h m₁ = .ok () m₂ ∧ cpuStep32 h m.opened = .ok () m' ∧
        m₂.cpu = { m'.cpu with segfaultAddr := m₂.cpu.segfaultAddr } ∧
        m₂.mem.byte = m'.mem.byte) := by
  obtain ⟨⟨k, t, hlies, hbehind⟩, hcount⟩ := retried_underway h hps hz hcode hrun
  refine ⟨(Nat.le_of_add_right_le hcount).trans (lacks_le _), ?_⟩
  rcases hbehind.attempt h hps hz hlies with ⟨k', t', m₂, hstop, hbehind', -, hmisses⟩ |
    ⟨t', m₂, hok, ht, hpages, heip⟩
  · exact .inl ⟨k', m₂, hstop, hbehind'.leftAfter hz, hmisses⟩
  · rcases (MoveOp.Behind.start z m.opened op).attempt h hps hz hcode with
      ⟨-, t₁, m', -, -, hperm, hmisses⟩ | ⟨t₁, m', hok', ht', hpages', heip'⟩
    · refine absurd ?_ (GuestMem.not_misses_opened m.mem)
      rwa [GuestMem.Misses, hperm] at hmisses
    · rw [show m.opened.opened = m.opened from rfl] at ht'
      rw [show (m.opened.cpu.regs .ecx) = m.cpu.regs .ecx from rfl, ht] at ht'
      cases ht'
      refine .inr ⟨m₂, m', hok, hok', bare_eq (hpages.cpu.symm.trans hpages'.cpu) ?_,
        hpages.byte.symm.trans hpages'.byte⟩
      exact heip.trans heip'.symm

end

theorem cpuStep32_f3 (h : Host) {m : Machine} (hload : m.mem.load m.cpu.eip = some 0xf3) :
    cpuStep32 h m = (Front.enter 32 m.cpu.eip).next.step h m.mem (some 0xf3) m := by
  have hrep (x : Prefix) : (0xf3 : BitVec 8) ≠ x.byte := by cases x <;> decide
  have hfuel : (2 : ℕ) ^ 32 = 4294967295 + 1 := rfl
  have hlast : restart m.mem m.cpu (.enter 32 m.cpu.eip) = _ :=
    restart_last hrep (by decide) rfl hload
  rw [cpuStep32, cpuStepOn, hfuel, Loop.run, hlast]

/-- `rep stosb` of `0x90` for the last byte of a page and one more, which is missing. -/
def fill (ip : Dword) : Machine where
  cpu := { (((CpuState.zero.setReg .eax 0x90).setReg .ecx 2).setReg .edi 0xfff) with eip := ip }
  mem := ⟨fun p ↦ if p = 1 then .unmapped else .readWrite,
    fun a ↦ if a = ip then 0xf3 else if a = ip + 1 then 0xaa else 0⟩
  rounding := .roundToNearest

theorem rep_retries_fill : ∃ m₁,
    Retried (cpuStep32 .zero) (MoveOp.stos.Supplied [] 8) (fill 0) 1 m₁ ∧
    1 ≤ 2 * Memory.memPages ∧
    ((∃ k m₂, cpuStep32 .zero m₁ = .stop intGpf m₂ ∧ MoveOp.stos.LeftAfter 8 k (fill 0) m₂ ∧
        m₂.mem.Misses) ∨
      ∃ m₂ m', cpuStep32 .zero m₁ = .ok () m₂ ∧ cpuStep32 .zero (fill 0).opened = .ok () m' ∧
        m₂.cpu = { m'.cpu with segfaultAddr := m₂.cpu.segfaultAddr } ∧
        m₂.mem.byte = m'.mem.byte) := by
  have hlies : MoveOp.stos.Lies [] 8 (fill 0) := by
    refine GuestMem.holds_cons.mpr ⟨rfl, GuestMem.holds_cons.mpr ⟨rfl, ?_⟩⟩
    exact fun i hi ↦ absurd hi (Nat.not_lt_zero i)
  obtain ⟨m, hstop, hmisses, hlies'⟩ : ∃ m, cpuStep32 .zero (fill 0) = .stop intGpf m ∧
      m.mem.Misses ∧ MoveOp.stos.Lies [] 8 m.opened := by
    refine ⟨_, (cpuStep32_f3 .zero rfl).trans rfl, ⟨1, by decide, Nat.zero_lt_two⟩, ?_⟩
    refine GuestMem.holds_cons.mpr ⟨rfl, GuestMem.holds_cons.mpr ⟨rfl, ?_⟩⟩
    exact fun i hi ↦ absurd hi (Nat.not_lt_zero i)
  have hrun : Retried (cpuStep32 .zero) (MoveOp.stos.Supplied [] 8) (fill 0) 1 m.opened :=
    .again .start hstop ⟨granted_opened hmisses, hlies'⟩
  exact ⟨_, hrun, rep_retries .zero [] (by decide) (.inl rfl) .stos (fill 0) hlies 1 _ hrun⟩

/-- The first byte that is stored makes a `pause` of the instruction. -/
theorem not_rep_restarts : ∃ m m₁ m₂ m', MoveOp.stos.Lies [] 8 m ∧
    Retried (cpuStep32 .zero) Granted m 1 m₁ ∧ cpuStep32 .zero m₁ = .ok () m₂ ∧
    cpuStep32 .zero m.opened = .ok () m' ∧ m₂.cpu.regs .ecx ≠ m'.cpu.regs .ecx := by
  have hlies : MoveOp.stos.Lies [] 8 (fill 0xffe) := by
    refine GuestMem.holds_cons.mpr ⟨rfl, GuestMem.holds_cons.mpr ⟨rfl, ?_⟩⟩
    exact fun i hi ↦ absurd hi (Nat.not_lt_zero i)
  obtain ⟨m, hstop, hmisses, m₂, hok, hecx⟩ : ∃ m, cpuStep32 .zero (fill 0xffe) = .stop intGpf m ∧
      m.mem.Misses ∧ ∃ m₂, cpuStep32 .zero m.opened = .ok () m₂ ∧ m₂.cpu.regs .ecx = 1 := by
    refine ⟨_, (cpuStep32_f3 .zero rfl).trans rfl, ⟨1, by decide, Nat.zero_lt_two⟩, ?_⟩
    exact ⟨_, (cpuStep32_f3 .zero rfl).trans rfl, rfl⟩
  obtain ⟨m', hok', hecx'⟩ : ∃ m', cpuStep32 .zero (fill 0xffe).opened = .ok () m' ∧
      m'.cpu.regs .ecx = 0 := ⟨_, (cpuStep32_f3 .zero rfl).trans rfl, rfl⟩
  refine ⟨fill 0xffe, m.opened, m₂, m', hlies, .again .start hstop (granted_opened hmisses), hok,
    hok', ?_⟩
  rw [hecx, hecx']
  decide

end Isl.Emu
