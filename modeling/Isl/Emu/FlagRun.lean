import Isl.Emu.FlagBytes
import Isl.Lib.Run

/-!
Where `SHL` leaves more than a bit in `cf` and `of`, and the two bytes all along a
run of `cpu_step32`.
-/

namespace Isl.Emu

open Isl.Lib Interp
open Memory (Byte)

/-! `SHL`, of which the two narrow widths are shifted as an `int`. -/

/-- A byte is zero or one if its other bits are clear. -/
theorem toNat_le_one_iff (x : BitVec 8) :
    x.toNat ≤ 1 ↔ ∀ j, 1 ≤ j → j < 8 → x.getLsbD j = false := by
  constructor
  · intro h j hj _
    exact Nat.testBit_lt_two_pow (h.trans_lt (Nat.one_lt_two_pow (by omega)))
  · intro h
    refine Nat.lt_succ_iff.mp (Nat.lt_pow_two_of_testBit (n := 1) x.toNat fun j hj ↦ ?_)
    rcases Nat.lt_or_ge j 8 with hlt | hge
    · exact h j hj hlt
    · exact BitVec.getLsbD_of_ge x j hge

/-- What is left of the operand above the carry. -/
def shlCarry {z : ℕ} (v : BitVec z) (cnt : ℕ) : BitVec 8 :=
  ((v.setWidth 32 <<< (cnt - 1)) >>> (z - 1)).setWidth 8

theorem getLsbD_shlCarry {z cnt j : ℕ} (v : BitVec z) (hcnt : cnt ≠ 0) (hlt : cnt < z)
    (hj : 1 ≤ j) (hj8 : j < 8) :
    (shlCarry v cnt).getLsbD j = (decide (j + z ≤ 32) && v.getLsbD (j + z - cnt)) := by
  have hidx : z - 1 + j - (cnt - 1) = j + z - cnt := by omega
  have hle : ¬z - 1 + j < cnt - 1 := by omega
  rw [shlCarry, BitVec.getLsbD_setWidth, BitVec.getLsbD_ushiftRight, BitVec.getLsbD_shiftLeft,
    BitVec.getLsbD_setWidth, hidx]
  have h32 : decide (z - 1 + j < 32) = decide (j + z ≤ 32) := decide_eq_decide.mpr (by omega)
  by_cases hz : j + z ≤ 32
  · have hlt32 : j + z - cnt < 32 := by omega
    simp [hj8, h32, hle, hz, hlt32]
  · simp [hj8, h32, hz]

/-- One of the seven bits above the one that goes into the carry is set, and stays in
the `int`. -/
def Spills (l : Locals) (count val : Operand) (z : ℕ) (m : Machine) : Prop :=
  ∃ c v j, get l count 8 m = .ok c m ∧ get l val z m = .ok v m ∧ c.toNat % z ≠ 0 ∧
    1 ≤ j ∧ j < 8 ∧ j + z ≤ 32 ∧ v.getLsbD (j + z - c.toNat % z) = true

/-- The bytes that `SHL` leaves. -/
theorem bytes_shlCarry {z cnt : ℕ} (v : BitVec z) (hz : 0 < z) (hcnt : cnt ≠ 0) (hlt : cnt < z)
    {m : Machine}
    (h : m.Bytes fun cf of ↦ cf = shlCarry v cnt ∧ of = cf ^^^ (v >>> (z - 1)).setWidth 8) :
    m.Bits ↔ ∀ j, 1 ≤ j → j < 8 → j + z ≤ 32 → v.getLsbD (j + z - cnt) = false := by
  obtain ⟨hcf, hof⟩ := h
  have htop : ((v >>> (z - 1)).setWidth 8).toNat ≤ 1 := ushiftRight_le v (by omega)
  have hbits : m.Bits ↔ m.cpu.cf.toNat ≤ 1 := by
    refine ⟨And.left, fun hle ↦ ⟨hle, ?_⟩⟩
    rw [hof]
    exact xor_le hle htop
  rw [hbits, hcf, toNat_le_one_iff]
  refine forall_congr' fun j ↦ forall_congr' fun hj ↦ forall_congr' fun hj8 ↦ ?_
  rw [getLsbD_shlCarry v hcnt hlt hj hj8, Bool.and_eq_false_imp, decide_eq_true_eq]

theorem shl_bytes {l : Locals} {count : Operand} {val : Place} {z : ℕ} {m : Machine} {c : BitVec 8}
    {v : BitVec z} (hc : get l count 8 m = .ok c m) (hcnt : c.toNat % z ≠ 0)
    (hv : get l val z m = .ok v m) :
    (shl l count val z m).All (Machine.Bytes fun cf of ↦
      cf = shlCarry v (c.toNat % z) ∧ of = cf ^^^ (v >>> (z - 1)).setWidth 8) := by
  have hsame : m.Same (m.mapCpu fun cpu ↦ { cpu with cf := shlCarry v (c.toNat % z) }) :=
    (Machine.Same.refl m).setCf
  have hv' := get_same hv hsame
  rw [shl, Exec.bind_ok hc]
  simp only [if_pos hcnt]
  rw [Exec.bind_ok hv, Exec.bind_ok (setCf_apply m _)]
  refine (congrArg (Outcome.All _) (Exec.bind_ok hv' _)).mpr ?_
  rw [Exec.get_bind_apply, Exec.bind_ok (setOf_apply _ _)]
  refine Exec.Keeps.bind (keeps_get _ _) (fun _ ↦ ?_) _ ⟨rfl, rfl⟩
  refine (keeps_set _ _).bind fun _ ↦ (keeps_get _ _).bind fun _ ↦ ?_
  exact (keeps_setRes _).bind fun _ ↦ keeps_zeroAf

/-- `SHL` keeps the two bytes zero or one unless a bit spills into them. -/
theorem shl_bits {l : Locals} {count : Operand} {val : Place} {z : ℕ} (hz : 0 < z) {m : Machine}
    (hm : m.Bits) :
    (shl l count val z m).All fun m' ↦ (m'.Bits ↔ ¬Spills l count val z m) := by
  -- an operand that cannot be read ends the step at once
  have hstop (hP : ¬Spills l count val z m) : m.Bits ↔ ¬Spills l count val z m :=
    ⟨fun _ ↦ hP, fun _ ↦ hm⟩
  rcases get_cases (l := l) count 8 m with ⟨c, hc⟩ | ⟨addr, hc⟩
  · by_cases hcnt : c.toNat % z = 0
    · have hskip : shl l count val z m = .ok () m := by
        rw [shl, Exec.bind_ok hc]
        simp [hcnt]
      rw [hskip]
      refine hstop fun ⟨c', v, j, hc', _, hcnt', _⟩ ↦ ?_
      rw [hc] at hc'
      cases hc'
      exact hcnt' hcnt
    · rcases get_cases (l := l) (val : Operand) z m with ⟨v, hv⟩ | ⟨addr, hv⟩
      · refine (shl_bytes hc hcnt hv).imp fun m' hbytes ↦ ?_
        rw [bytes_shlCarry v hz hcnt (Nat.mod_lt _ hz) hbytes]
        constructor
        · rintro hclear ⟨c', v', j, hc', hv', -, hj, hj8, h32, hbit⟩
          rw [hc] at hc'
          cases hc'
          rw [hv] at hv'
          cases hv'
          rw [hclear j hj hj8 h32] at hbit
          cases hbit
        · intro hno j hj hj8 h32
          by_contra hbit
          exact hno ⟨c, v, j, hc, hv, hcnt, hj, hj8, h32, Bool.eq_true_of_not_eq_false hbit⟩
      · have hread : shl l count val z m = .stop (.gpf addr) m := by
          rw [shl, Exec.bind_ok hc]
          simp only [ne_eq, hcnt, not_false_eq_true, if_true]
          exact Exec.bind_stop hv _
        rw [hread]
        refine hstop fun ⟨c', v, j, _, hv', _⟩ ↦ ?_
        rw [hv] at hv'
        cases hv'
  · rw [shl, Exec.bind_stop hc]
    refine hstop fun ⟨c', v, j, hc', _⟩ ↦ ?_
    rw [hc] at hc'
    cases hc'

/-! The decoder. -/

section

variable {code : GuestMem} {cpu : CpuState} {oz : ℕ}

/-- What the decoder gives has the sizes of its operand size. -/
def Gives (oz : ℕ) (d : Decode Insn) : Prop := ∀ c insn c', d c = .ok (insn, c') → insn.Sized oz

theorem Gives.pure {insn : Insn} (h : insn.Sized oz) : Gives oz (Pure.pure insn) := by
  intro c insn' c' hd
  cases hd
  exact h

theorem Gives.bind {α : Type} {d : Decode α} {f : α → Decode Insn} (h : ∀ a, Gives oz (f a)) :
    Gives oz (d >>= f) := by
  intro c insn c' hd
  change (d c >>= fun p ↦ f p.1 p.2) = .ok (insn, c') at hd
  cases hc : d c with
  | error i =>
    rw [hc] at hd
    cases hd
  | ok p =>
    rw [hc] at hd
    exact h p.1 p.2 insn c' hd

theorem Gives.ite {c : Prop} [Decidable c] {d e : Decode Insn} (hd : Gives oz d) (he : Gives oz e) :
    Gives oz (if c then d else e) := by
  split
  · exact hd
  · exact he

theorem gives_withModrm {insn : Insn} (h : insn.Sized oz) : Gives oz (withModrm code cpu insn) :=
  .bind fun _ ↦ .pure h

theorem gives_withModrmMem {insn : Insn} (h : insn.Sized oz) :
    Gives oz (withModrmMem code cpu insn) := .bind fun _ ↦ .pure h

theorem gives_withImm {insn : Insn} (w : ℕ) (h : insn.Sized oz) : Gives oz (withImm code w insn) :=
  .bind fun _ ↦ .pure h

theorem gives_withImm8 {insn : Insn} (h : insn.Sized oz) : Gives oz (withImm8 code insn) :=
  .bind fun _ ↦ .pure h

theorem gives_segment {insn : Insn} (h : insn.Sized oz) : Gives oz (segment code cpu insn) :=
  .bind fun _ ↦ .bind fun _ ↦ .ite (.pure trivial) (.pure h)

theorem gives_makeOp (op : ArithOp) (n : ℕ) : Gives oz (makeOp code cpu oz op n) := by
  unfold makeOp
  split
  all_goals first
    | exact gives_withModrm trivial
    | exact gives_withImm8 trivial
    | exact gives_withImm _ trivial

theorem gives_grp1 (src : Operand) (dst : Place) (z : ℕ) : Gives oz (grp1 src dst z) :=
  .bind fun _ ↦ .pure trivial

theorem gives_grp1Atomic (src : Operand) (dst : Place) (z : ℕ) : Gives oz (grp1Atomic src dst z) :=
  .bind fun _ ↦ .ite (.pure trivial) (.pure trivial)

theorem gives_grp2 (count : Operand) {z : ℕ} (hz : z = 8 ∨ z = oz) :
    Gives oz (grp2 count .modrmVal z) := by
  refine .bind fun n ↦ ?_
  split <;> first | exact .pure trivial | exact .pure ⟨rfl, hz⟩

theorem gives_grp3 (readImm : Decode Unit) (val : Place) (z : ℕ) :
    Gives oz (grp3 readImm val z) := by
  refine .bind fun n ↦ ?_
  split <;> first | exact .pure trivial | exact .bind fun _ ↦ .pure trivial

theorem gives_grp5 (val : Place) (z : ℕ) : Gives oz (grp5 val z) := by
  refine .bind fun n ↦ ?_
  split <;> exact .pure trivial

theorem gives_grp5Atomic (val : Place) (z : ℕ) : Gives oz (grp5Atomic val z) := by
  refine .bind fun n ↦ ?_
  split <;> exact .pure trivial

theorem gives_grp8 (bit : Operand) (val : Place) (z : ℕ) : Gives oz (grp8 bit val z) := by
  refine .bind fun n ↦ ?_
  split <;> exact .pure trivial

theorem sized_fpuMem (n : ℕ) : (fpuMem n).Sized oz := by
  unfold fpuMem
  split <;> trivial

theorem sized_fpuReg (insn opcode rmOpcode : ℕ) : (fpuReg insn opcode rmOpcode).Sized oz := by
  have hwhole (n : ℕ) : (fpuWhole n).Sized oz := by
    unfold fpuWhole
    split <;> trivial
  unfold fpuReg
  split <;> first | trivial | exact hwhole _

theorem gives_fpu (n : ℕ) : Gives oz (fpu code cpu n) := by
  refine .bind fun _ ↦ .bind fun _ ↦ .ite (.pure ?_) (.pure ?_)
  · exact sized_fpuMem _
  · exact sized_fpuReg _ _ _

theorem gives_twoByte (insn : Byte) : Gives oz (twoByte code cpu oz insn) := by
  unfold twoByte
  dsimp only
  split
  all_goals first
    | (with_reducible refine gives_withModrm ?_); trivial
    | (with_reducible refine .pure ?_); trivial
    | (with_reducible refine .ite (gives_withModrm ?_) (.pure ?_)) <;> trivial
    | exact .bind fun _ ↦ .bind fun _ ↦ gives_grp8 _ _ _
    | exact .bind fun _ ↦ gives_withImm8 trivial
    | skip
  refine .ite (gives_withModrm trivial) (.ite (gives_withModrm trivial) ?_)
  refine .ite (gives_withImm _ trivial) (.ite (gives_withModrm trivial) ?_)
  exact .ite (.pure trivial) (.pure trivial)

theorem gives_locked (insn : Byte) : Gives oz (locked code cpu oz insn) := by
  unfold locked
  dsimp only
  split
  · refine .bind fun _ ↦ ?_
    split <;> first | exact gives_withModrmMem trivial | exact .pure trivial
  · exact .bind fun _ ↦ .bind fun _ ↦ gives_grp1Atomic _ _ _
  · exact .bind fun _ ↦ .bind fun _ ↦ gives_grp1Atomic _ _ _
  · exact .bind fun _ ↦ .bind fun _ ↦ gives_grp1Atomic _ _ _
  · exact .bind fun _ ↦ gives_grp5Atomic _ _
  · exact .bind fun _ ↦ gives_grp5Atomic _ _
  · refine .ite (gives_withModrmMem trivial) ?_
    exact .ite (gives_withModrmMem trivial) (.pure trivial)

theorem gives_repnz : Gives oz (repnz code cpu oz) := by
  refine .bind fun _ ↦ ?_
  split <;> first | exact .pure trivial | skip
  refine .bind fun _ ↦ .ite (gives_withModrmMem trivial) ?_
  exact .ite (gives_withModrm trivial) (.pure trivial)

theorem gives_repz : Gives oz (repz code cpu oz) := by
  refine .bind fun _ ↦ ?_
  split <;> first | exact .pure trivial | skip
  refine .bind fun _ ↦ .ite (gives_withModrm trivial) (.ite (gives_withModrm trivial) ?_)
  exact .ite (gives_withModrm trivial) (.ite (gives_withModrm trivial) (.pure trivial))

theorem gives_oneByte (insn : Byte) : Gives oz (oneByte code cpu oz insn) := by
  unfold oneByte
  dsimp only
  split
  all_goals first
    | (with_reducible refine gives_withModrm ?_); trivial
    | (with_reducible refine gives_withModrmMem ?_); trivial
    | (with_reducible refine gives_withImm _ ?_); trivial
    | (with_reducible refine gives_withImm8 ?_); trivial
    | (with_reducible refine gives_segment ?_); trivial
    | with_reducible exact gives_repnz
    | with_reducible exact gives_repz
    | (with_reducible refine .pure ?_); trivial
    | (with_reducible refine .bind fun _ ↦ .pure ?_); trivial
    | with_reducible exact .bind fun _ ↦ gives_twoByte _
    | with_reducible exact .bind fun _ ↦ gives_grp2 _ (.inl rfl)
    | with_reducible exact .bind fun _ ↦ gives_grp2 _ (.inr rfl)
    | with_reducible exact .bind fun _ ↦ gives_grp3 _ _ _
    | with_reducible exact .bind fun _ ↦ gives_grp5 _ _
    | with_reducible exact .bind fun _ ↦ .bind fun _ ↦ gives_grp1 _ _ _
    | with_reducible exact .bind fun _ ↦ .bind fun _ ↦ gives_grp2 _ (.inl rfl)
    | with_reducible exact .bind fun _ ↦ .bind fun _ ↦ gives_grp2 _ (.inr rfl)
    | exact .bind fun _ ↦ gives_withImm _ trivial
    | exact .bind fun _ ↦ gives_withImm8 trivial
    | skip
  refine .ite (gives_makeOp _ _) (.ite (.pure trivial) (.ite (.pure trivial) ?_))
  refine .ite (.pure trivial) (.ite (.pure trivial) (.ite (gives_withImm8 trivial) ?_))
  refine .ite (.pure trivial) (.ite (gives_withImm8 trivial) (.ite (gives_withImm _ trivial) ?_))
  exact .ite (gives_fpu _) (.pure trivial)

end

/-! Steps. -/

/-- The instruction at `eip` with its locals, and the machine that it is run on. -/
def Machine.insn (m : Machine) : Option (Insn × Locals × Machine) := do
  let (f, byte) ← Loop.run (restart m.mem m.cpu) (2 ^ 32) (.enter 32 m.cpu.eip)
  match f.decode m.mem m.cpu byte with
  | .error _ => none
  | .ok (insn, c) =>
    some (insn, ⟨f.oz, c.addr, c.modrm, c.imm⟩, m.withEip c.ip)

/-- The machine after a step, which may have ended with an interrupt. -/
def Machine.next (m : Machine) (h : Host) : Option Machine := (cpuStep32 h m).state?

/-- The next instruction is a `SHL` that leaves more than a bit in `cf`. -/
def Machine.Spills (m : Machine) : Prop :=
  ∃ count val z l m₁, m.insn = some (.shift .shl count val z, l, m₁) ∧ Emu.Spills l count val z m₁

section

variable {h : Host} {m : Machine}

/-- A step on an instruction that can be decoded. -/
theorem cpuStep32_of_insn {w : Machine} {l : Locals} {insn : Insn}
    (hi : m.insn = some (insn, l, w)) :
    (∃ ip, w = m.withEip ip) ∧ ∃ savedIp, cpuStep32 h m = returned savedIp (exec h l insn w) := by
  unfold Machine.insn at hi
  obtain ⟨⟨f, byte⟩, hrun, hd⟩ := Option.bind_eq_some_iff.mp hi
  dsimp only at hd
  split at hd
  · cases hd
  · cases hd
    refine ⟨⟨_, rfl⟩, f.savedIp, ?_⟩
    rw [cpuStep32, cpuStepOn, hrun]
    simp only [Front.step, *]

theorem sized_decode {code : GuestMem} {cpu : CpuState} {f : Front} {byte : Option Byte}
    {insn : Insn} {c : Cursor} (hd : f.decode code cpu byte = .ok (insn, c)) :
    insn.Sized f.oz := by
  cases byte with
  | none => cases hd
  | some b =>
    simp only [Front.decode] at hd
    split at hd
    · exact gives_locked b _ _ _ hd
    · exact gives_oneByte b _ _ _ hd

theorem oz_run {code : GuestMem} {cpu : CpuState} {n : ℕ} {ip : Dword} {f : Front}
    {byte : Option Byte} (hrun : Loop.run (restart code cpu) n (.enter 32 ip) = some (f, byte)) :
    f.oz = 16 ∨ f.oz = 32 := by
  refine Loop.run_invariant (P := fun f ↦ f.oz = 16 ∨ f.oz = 32)
    (Q := fun r ↦ r.1.oz = 16 ∨ r.1.oz = 32) ?_ ?_ (.inr rfl) hrun
  · intro f g hf hg
    unfold restart at hg
    split at hg
    · cases hg
    · repeat' split at hg
      all_goals first | cases hg; exact hf | cases hg
      all_goals simp [Front.enter]
  · intro f r hf hr
    unfold restart at hr
    split at hr
    · cases hr
      exact hf
    · repeat' split at hr
      all_goals cases hr
      all_goals exact hf

/-- What an early return does to the registers is not seen in the bytes. -/
theorem finish_bits (savedIp : Dword) {P : Prop} (o : Outcome Stop Wrong Machine Unit) :
    o.All (fun m' ↦ (m'.Bits ↔ P)) → (returned savedIp o).All fun m' ↦ (m'.Bits ↔ P) := by
  intro ho
  cases o with
  | ok a m => exact ho
  | stop i m => cases i <;> exact ho
  | wrong e => trivial

theorem exec_bits {insn : Insn} {l : Locals} (hoz : l.oz = 16 ∨ l.oz = 32)
    (hsized : insn.Sized l.oz) (hm : m.Bits) :
    (exec h l insn m).All fun m' ↦
      (m'.Bits ↔ ¬∃ count val z, insn = .shift .shl count val z ∧ Spills l count val z m) := by
  by_cases hshl : ∃ count val z, insn = .shift .shl count val z
  · obtain ⟨count, val, z, rfl⟩ := hshl
    have hz : 0 < z := by
      obtain ⟨-, hz⟩ := hsized
      omega
    refine (shl_bits hz hm).imp fun m' hm' ↦ hm'.trans (not_congr ⟨?_, ?_⟩)
    · exact fun hspills ↦ ⟨count, val, z, rfl, hspills⟩
    · rintro ⟨count', val', z', hinsn, hspills⟩
      cases hinsn
      exact hspills
  · have hkeeps := keeps_exec (h := h) hoz hsized fun count val z hinsn ↦
      hshl ⟨count, val, z, hinsn⟩
    refine (hkeeps m hm).imp fun m' hm' ↦ ⟨?_, fun _ ↦ hm'⟩
    rintro - ⟨count, val, z, hinsn, -⟩
    exact hshl ⟨count, val, z, hinsn⟩

/-- One step keeps the bytes zero or one exactly unless it spills. -/
theorem step_bits (h : Host) (hm : m.Bits) :
    (cpuStep32 h m).All fun m' ↦ (m'.Bits ↔ ¬m.Spills) := by
  unfold cpuStep32 cpuStepOn
  cases hrun : Loop.run (restart m.mem m.cpu) (2 ^ 32) (.enter 32 m.cpu.eip) with
  | none => trivial
  | some r =>
    rcases r with ⟨f, byte⟩
    simp only [Front.step]
    cases hdecode : f.decode m.mem m.cpu byte with
    | error i =>
      have hnone : m.insn = none := by
        rw [Machine.insn, hrun]
        simp only [Option.bind_eq_bind, Option.bind_some, hdecode]
      have hno : ¬m.Spills := by
        rintro ⟨count, val, z, l, m₁, hinsn, -⟩
        rw [hnone] at hinsn
        cases hinsn
      cases i <;> exact ⟨fun _ ↦ hno, fun _ ↦ hm⟩
    | ok r =>
      rcases r with ⟨insn, c⟩
      have hsome : m.insn = some (insn, ⟨f.oz, c.addr, c.modrm, c.imm⟩, m.withEip c.ip) := by
        rw [Machine.insn, hrun]
        simp only [Option.bind_eq_bind, Option.bind_some, hdecode]
      have hexec := exec_bits (h := h) (l := ⟨f.oz, c.addr, c.modrm, c.imm⟩)
        (m := m.withEip c.ip) (oz_run hrun) (sized_decode hdecode) hm
      refine finish_bits _ _ (hexec.imp fun m' hm' ↦ hm'.trans (not_congr ⟨?_, ?_⟩))
      · rintro ⟨count, val, z, rfl, hspills⟩
        exact ⟨count, val, z, _, _, hsome, hspills⟩
      · rintro ⟨count, val, z, l, m₁, hinsn, hspills⟩
        rw [hsome] at hinsn
        cases hinsn
        exact ⟨count, val, z, rfl, hspills⟩

/-- All along a run the bytes stay zero or one exactly if no step spills. -/
theorem bits_along_run {m' : Machine} {hosts : List Host} (hm : m.Bits)
    (he : Run.exec Machine.next m hosts = some m') :
    (∀ pre u, pre <+: hosts → Run.exec Machine.next m pre = some u → u.Bits) ↔
      Run.Guarded Machine.next (fun m _ ↦ ¬m.Spills) m hosts := by
  have hstep (s : Machine) (h : Host) (t : Machine) (hs : s.Bits) (_ : True)
      (ht : s.next h = some t) : (t.Bits ↔ ¬s.Spills) ∧ (t.Bits → True) :=
    ⟨(step_bits h hs).state? ht, fun _ ↦ trivial⟩
  exact Run.forall_prefix_iff_guarded hstep hm trivial he

end

/-- A machine that is to run `shl al, 3`. -/
def shlAl (al : Dword) : Machine where
  cpu := CpuState.zero.setReg .eax al
  mem := ⟨fun _ ↦ .readWrite, fun a ↦
    if a = 0 then 0xc0 else if a = 1 then 0xe0 else if a = 2 then 3 else 0⟩
  rounding := .roundToNearest

theorem bits_along_run_shlAl : ∃ m', Run.exec Machine.next (shlAl 0x1f) [Host.zero] = some m' ∧
    ((∀ pre u, pre <+: [Host.zero] →
        Run.exec Machine.next (shlAl 0x1f) pre = some u → u.Bits) ↔
      Run.Guarded Machine.next (fun m _ ↦ ¬m.Spills) (shlAl 0x1f) [Host.zero]) := by
  have hrun : (Run.exec Machine.next (shlAl 0x1f) [Host.zero]).isSome := by
    decide +kernel
  obtain ⟨m', hm'⟩ := Option.isSome_iff_exists.mp hrun
  exact ⟨m', hm', bits_along_run ⟨by decide, by decide⟩ hm'⟩

/-- From a byte of ones three bits reach `cf`. -/
theorem bits_not_kept : ¬∀ (m m' : Machine) (hosts : List Host), m.Bits →
    Run.exec Machine.next m hosts = some m' → m'.Bits := by
  intro hall
  have hcf : (Run.exec Machine.next (shlAl 0xff) [Host.zero]).map (fun m ↦ m.cpu.cf) = some 7 := by
    decide +kernel
  obtain ⟨m', hm', hcf'⟩ := Option.map_eq_some_iff.mp hcf
  have hle := (hall (shlAl 0xff) m' [Host.zero] ⟨by decide, by decide⟩ hm').1
  rw [hcf'] at hle
  exact absurd hle (by decide)

end Isl.Emu
