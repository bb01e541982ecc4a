import Isl.Emu.PushPop
import Isl.Emu.FlagRun

/-!
The flags as a word: `collapse_flags` puts them into `eflags`, from where `expand_flags`
takes them, and `PUSHF` and `POPF` do so by way of the stack. `SAHF` writes some of them
into the word and expands it, whether or not it was up to date.
-/

namespace Isl.Emu

open Isl.Lib Interp

/-- The flags that are in `eflags`. -/
def CpuState.stored (cpu : CpuState) : Flags where
  cf := if cpu.flag .cfBit then 1 else 0
  of := if cpu.flag .ofBit then 1 else 0
  zf := cpu.flag .zf
  sf := cpu.flag .sf
  pf := cpu.flag .pf
  af := cpu.flag .af
  df := cpu.flag .df

section

variable {h : Host} {l l' : Locals} {m m' : Machine} {cpu cpu' : CpuState} {ip : Dword}

theorem stored_congr (h : cpu'.eflags = cpu.eflags) : cpu'.stored = cpu.stored := by
  change CpuState.stored { cpu with eflags := cpu'.eflags } = cpu.stored
  rw [h]

/-- Once expanded, the flags are those in `eflags`. -/
theorem flags_expandFlags (cpu : CpuState) : cpu.expandFlags.flags = cpu.stored := rfl

theorem bit_of_le {b : BitVec 8} (hb : b.toNat ≤ 1) : (if b.getLsbD 0 then 1 else 0) = b := by
  have hcases : b = 0 ∨ b = 1 := by
    rcases Nat.le_one_iff_eq_zero_or_eq_one.mp hb with h | h
    · exact .inl (BitVec.eq_of_toNat_eq h)
    · exact .inr (BitVec.eq_of_toNat_eq h)
  rcases hcases with rfl | rfl <;> rfl

/-- Once collapsed, all flags are in `eflags`. -/
theorem stored_collapseFlags (hcf : cpu.cf.toNat ≤ 1) (hof : cpu.of.toNat ≤ 1) :
    cpu.collapseFlags.stored = cpu.flags := by
  simp only [CpuState.stored, cpu.flag_collapseFlags, bit_of_le hcf, bit_of_le hof]
  rfl

theorem pushf_popf (h : Host) (ip : Dword) (hoz : l.oz = 32) (hoz' : l'.oz = 32) (hw : m.nextSlot.Writable m 32) :
    ∃ m₁ m₂, exec h l .pushf m = .ok () m₁ ∧ exec h l' .popf (m₁.withEip ip) = .ok () m₂ ∧
      m₂.cpu.flags = m.cpu.collapseFlags.stored := by
  obtain ⟨mc, hmc⟩ : ∃ mc, mc = m.mapCpu CpuState.collapseFlags := ⟨_, rfl⟩
  have hwc : mc.nextSlot.Writable mc 32 := by
    rw [hmc]
    exact hw
  obtain ⟨g, hg⟩ := tlbWrite_of_writable hwc mc.cpu.eflags
  have hget : get l Place.eflags 32 mc = .ok mc.cpu.eflags mc :=
    congrArg (fun v ↦ Outcome.ok v mc) (BitVec.setWidth_eq mc.cpu.eflags)
  have hpush : exec h l .pushf m = .ok () (mc.pushed g) := by
    refine Exec.bind_eq rfl ?_
    rw [hoz, ← hmc]
    exact push_ok hoz hget hg
  have hread : ((mc.pushed g).withEip ip).mem.tlbRead
      (((mc.pushed g).withEip ip).cpu.regs .esp) 32 = some mc.cpu.eflags :=
    tlbRead_pushed (m := mc) hg
  have hpop : pop l' .eflags 32 ((mc.pushed g).withEip ip) = _ := pop_ok hoz' hread rfl
  refine ⟨_, _, hpush, Exec.bind_eq hpop rfl, (flags_expandFlags _).trans (stored_congr ?_)⟩
  exact (BitVec.setWidth_eq mc.cpu.eflags).trans (congrArg (fun m ↦ m.cpu.eflags) hmc)

end

/-- The flags survive in `eflags`, whatever mix they were kept in. -/
theorem flags_kept (cpu : CpuState) (hcf : cpu.cf.toNat ≤ 1) (hof : cpu.of.toNat ≤ 1) :
    cpu.collapseFlags.stored = cpu.flags ∧ cpu.collapseFlags.flags = cpu.flags ∧
    cpu.collapseFlags.expandFlags.flags = cpu.flags ∧
    ∀ (h : Host) (l l' : Locals) (m : Machine) (ip : Dword), l.oz = 32 → l'.oz = 32 →
      m.cpu = cpu → m.nextSlot.Writable m 32 →
      ∃ m₁ m₂, exec h l .pushf m = .ok () m₁ ∧ exec h l' .popf (m₁.withEip ip) = .ok () m₂ ∧
        m₂.cpu.flags = cpu.flags := by
  have hstored := stored_collapseFlags hcf hof
  refine ⟨hstored, cpu.flags_collapseFlags, (flags_expandFlags _).trans hstored, ?_⟩
  rintro h l l' m ip hoz hoz' rfl hw
  obtain ⟨m₁, m₂, hpush, hpop, hflags⟩ := pushf_popf h ip hoz hoz' hw
  exact ⟨m₁, m₂, hpush, hpop, hflags.trans hstored⟩

/-- After a carry out of the third bit, with the zero and the auxiliary carry flag not yet
computed. -/
def mixed : CpuState :=
  { CpuState.zero with cf := 1, res := 0x10, op1 := 8, op2 := 8, zfRes := true, afOps := true }

theorem flags_kept_mixed : mixed.collapseFlags.stored = mixed.flags ∧
    mixed.collapseFlags.expandFlags.flags = mixed.flags ∧
    ∃ m₁ m₂, exec .zero .zero .pushf { Machine.zero with cpu := mixed } = .ok () m₁ ∧
      exec .zero .zero .popf (m₁.withEip 1) = .ok () m₂ ∧ m₂.cpu.flags = mixed.flags := by
  obtain ⟨hstored, -, hexpanded, hpushf⟩ := flags_kept mixed (by decide) (by decide)
  exact ⟨hstored, hexpanded,
    hpushf .zero .zero .zero { Machine.zero with cpu := mixed } 1 rfl rfl rfl fun _ _ ↦ rfl⟩

/-! `SAHF`. -/

/-- The bits of `eflags` that come from `ah`. -/
def ahBits : List ℕ := [0, 2, 4, 6, 7]

/-- `SAHF` sets five flags to the bits of `ah` and changes nothing else. -/
structure SahfRight (m m' : Machine) : Prop where
  sf : m'.cpu.SF = (m.cpu.regs .eax).getLsbD (8 + 7)
  zf : m'.cpu.ZF = (m.cpu.regs .eax).getLsbD (8 + 6)
  af : m'.cpu.AF = (m.cpu.regs .eax).getLsbD (8 + 4)
  pf : m'.cpu.PF = (m.cpu.regs .eax).getLsbD (8 + 2)
  cf : m'.cpu.CF = byteOf ((m.cpu.regs .eax).getLsbD (8 + 0))
  of : m'.cpu.OF = m.cpu.OF
  df : m'.cpu.flag .df = m.cpu.flag .df
  eflags : ∀ i, i ∉ ahBits → m'.cpu.eflags.getLsbD i = m.cpu.eflags.getLsbD i
  regs : m'.cpu.regs = m.cpu.regs
  xmm : m'.cpu.xmm = m.cpu.xmm
  fp : m'.cpu.fp = m.cpu.fp
  eip : m'.cpu.eip = m.cpu.eip
  mem : m'.mem = m.mem

/-- The overflow flag in `eflags` is the one that the condition codes use. -/
def Machine.Collapsed (m : Machine) : Prop := m.cpu.of = byteOf (m.cpu.flag .ofBit)

/-- What `SAHF` makes of `eflags`. -/
def sahfWord (cpu : CpuState) : Dword :=
  cpu.eflags &&& (0xffffff00#32 ||| ~~~ahFlagMask) |||
    (((cpu.regs .eax >>> 8) &&& 0xff#32) &&& ahFlagMask)

section

variable {h : Host} {l : Locals} {m m' m₁ : Machine}

theorem getLsbD_sahfWord (cpu : CpuState) (i : ℕ) : (sahfWord cpu).getLsbD i =
    if i ∈ ahBits then (cpu.regs .eax).getLsbD (8 + i) else cpu.eflags.getLsbD i := by
  have hkept : ∀ i < 32, (0xffffff00#32 ||| ~~~ahFlagMask).getLsbD i = decide (i ∉ ahBits) := by decide
  have hset : ∀ i < 32, (0xff#32 &&& ahFlagMask).getLsbD i = decide (i ∈ ahBits) := by decide
  by_cases hi : i < 32
  · rw [sahfWord, BitVec.and_assoc, BitVec.getLsbD_or, BitVec.getLsbD_and, BitVec.getLsbD_and,
      hkept i hi, hset i hi, BitVec.getLsbD_ushiftRight]
    by_cases hmem : i ∈ ahBits <;> simp [hmem]
  · have hmem : i ∉ ahBits := by
      simp only [ahBits, List.mem_cons, List.not_mem_nil, or_false]
      omega
    rw [if_neg hmem, BitVec.getLsbD_of_ge _ _ (by omega), BitVec.getLsbD_of_ge _ _ (by omega)]

theorem exec_sahf (m : Machine) : exec h l .sahf m = .ok () (m.mapCpu fun cpu ↦
    { cpu with eflags := sahfWord cpu }.expandFlags) := rfl

/-- `OF` becomes what `eflags` has, whether or not it is up to date. -/
theorem sahf_right_iff (m : Machine) : SahfRight m (m.mapCpu fun cpu ↦
    { cpu with eflags := sahfWord cpu }.expandFlags) ↔ m.Collapsed := by
  have hbit (f : FlagBit) (i : ℕ) (hi : f.index = i) :
      (m.mapCpu fun cpu ↦ { cpu with eflags := sahfWord cpu }.expandFlags).cpu.flag f =
        if i ∈ ahBits then (m.cpu.regs .eax).getLsbD (8 + i) else m.cpu.eflags.getLsbD i := by
    rw [← hi]
    exact getLsbD_sahfWord m.cpu f.index
  have hof : (m.mapCpu fun cpu ↦ { cpu with eflags := sahfWord cpu }.expandFlags).cpu.OF =
      byteOf (m.cpu.flag .ofBit) :=
    congrArg byteOf (hbit .ofBit 11 rfl)
  constructor
  · exact fun hright ↦ hright.of.symm.trans hof
  · intro hcollapsed
    refine ⟨hbit .sf 7 rfl, hbit .zf 6 rfl, hbit .af 4 rfl, hbit .pf 2 rfl, ?_,
      hof.trans hcollapsed.symm, hbit .df 10 rfl, ?_, rfl, rfl, rfl, rfl, rfl⟩
    · exact congrArg byteOf (hbit .cfBit 0 rfl)
    · exact fun i hi ↦ (getLsbD_sahfWord m.cpu i).trans (if_neg hi)

/-- A step on `SAHF`. -/
theorem next_sahf (hi : m.insn = some (.sahf, l, m₁)) : m.next h = some (m₁.mapCpu fun cpu ↦
    { cpu with eflags := sahfWord cpu }.expandFlags) := by
  obtain ⟨-, savedIp, hstep⟩ := cpuStep32_of_insn (h := h) hi
  rw [Machine.next, hstep, exec_sahf]
  rfl

end

/-- A step on `SAHF` is right exactly where `eflags` has the overflow flag, and in a run
all of them are if and only if it comes to `SAHF` only there. -/
theorem sahf_iff (h : Host) :
    (∀ (m m₁ : Machine) (l : Locals), m.insn = some (.sahf, l, m₁) →
      ((∃ m', m.next h = some m' ∧ SahfRight m₁ m') ↔ m₁.Collapsed)) ∧
    ∀ (m : Machine) (hosts : List Host),
      (∀ (pre : List Host) (h : Host) (u : Machine), pre ++ [h] <+: hosts →
        Run.exec Machine.next m pre = some u → ∀ u₁ l, u.insn = some (.sahf, l, u₁) →
        ∃ u', u.next h = some u' ∧ SahfRight u₁ u') ↔
      Run.Guarded Machine.next
        (fun u _ ↦ ∀ u₁ l, u.insn = some (.sahf, l, u₁) → u₁.Collapsed) m hosts := by
  have hstep (h : Host) (m m₁ : Machine) (l : Locals) (hi : m.insn = some (.sahf, l, m₁)) :
      (∃ m', m.next h = some m' ∧ SahfRight m₁ m') ↔ m₁.Collapsed := by
    rw [← sahf_right_iff, next_sahf hi]
    constructor
    · rintro ⟨m', hm', hright⟩
      cases hm'
      exact hright
    · exact fun hright ↦ ⟨_, rfl, hright⟩
  refine ⟨hstep h, fun m hosts ↦ ?_⟩
  rw [Run.guarded_iff]
  constructor
  · exact fun hall pre h' u hpre hu u₁ l hi ↦ (hstep h' u u₁ l hi).mp (hall pre h' u hpre hu u₁ l hi)
  · exact fun hall pre h' u hpre hu u₁ l hi ↦ (hstep h' u u₁ l hi).mpr (hall pre h' u hpre hu u₁ l hi)

/-- A machine that is to run `add al, 0x7f` and `sahf`. -/
def addSahf (al : Dword) : Machine where
  cpu := CpuState.zero.setReg .eax al
  mem := ⟨fun _ ↦ .readWrite, fun a ↦ if a = 0 then 0x04 else if a = 1 then 0x7f else if a = 2 then
    0x9e else 0⟩
  rounding := .roundToNearest

/-- Whether `SAHF` comes next, with the overflow flag in its two places. -/
def Machine.atSahf (m : Machine) : Option (BitVec 8 × Bool) :=
  match m.insn with
  | some (.sahf, _, m₁) => some (m₁.cpu.of, m₁.cpu.flag .ofBit)
  | _ => none

theorem insn_of_atSahf {m : Machine} {of : BitVec 8} {bit : Bool} (h : m.atSahf = some (of, bit)) :
    ∃ l m₁, m.insn = some (.sahf, l, m₁) ∧ m₁.cpu.of = of ∧ m₁.cpu.flag .ofBit = bit := by
  unfold Machine.atSahf at h
  split at h
  · cases h
    exact ⟨_, _, ‹_›, rfl, rfl⟩
  · cases h

/-- A sum that does not overflow leaves `OF` as it was in `eflags`. -/
theorem sahf_iff_add : ∃ m m₁ m' l, Run.exec Machine.next (addSahf 0) [Host.zero] = some m ∧
    m.insn = some (.sahf, l, m₁) ∧ m.next .zero = some m' ∧ SahfRight m₁ m' := by
  have hrun : (Run.exec Machine.next (addSahf 0) [Host.zero]).bind Machine.atSahf =
      some (0, false) := by decide +kernel
  obtain ⟨m, hm, hat⟩ := Option.bind_eq_some_iff.mp hrun
  obtain ⟨l, m₁, hi, hof, hbit⟩ := insn_of_atSahf hat
  have hcollapsed : m₁.Collapsed := by
    rw [Machine.Collapsed, hof, hbit]
    rfl
  obtain ⟨m', hm', hright⟩ := ((sahf_iff .zero).1 m m₁ l hi).mpr hcollapsed
  exact ⟨m, m₁, m', l, hm, hi, hm', hright⟩

/-- After 1 and 127 are added, `OF` is set and `SAHF` clears it. -/
theorem not_sahf_right : ¬∀ (m m₀ m₁ m' : Machine) (hosts : List Host) (h : Host) (l : Locals),
    Run.exec Machine.next m₀ hosts = some m → m.insn = some (.sahf, l, m₁) →
    m.next h = some m' → SahfRight m₁ m' := by
  intro hall
  have hrun : (Run.exec Machine.next (addSahf 1) [Host.zero]).bind Machine.atSahf =
      some (1, false) := by decide +kernel
  obtain ⟨m, hm, hat⟩ := Option.bind_eq_some_iff.mp hrun
  obtain ⟨l, m₁, hi, hof, hbit⟩ := insn_of_atSahf hat
  have hright := hall m (addSahf 1) m₁ _ [Host.zero] .zero l hm hi (next_sahf hi)
  have hcollapsed := (sahf_right_iff m₁).mp hright
  rw [Machine.Collapsed, hof, hbit] at hcollapsed
  exact absurd hcollapsed (by decide)

end Isl.Emu
