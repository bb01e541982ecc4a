import Isl.Emu.Carry
import Isl.Emu.Steady

/-!
What the condition codes say of the two numbers that were compared, and the jumps,
moves and bytes that depend on them further on in the program.
-/

namespace Isl.Emu

open Isl.Lib Interp

/-! The relations. -/

namespace Cond

variable {z : ℕ}

/-- The relation of two numbers that a condition is named after. -/
def Decides (d s : BitVec z) : Cond → Prop
  | .O => d.toInt - s.toInt < -2 ^ (z - 1) ∨ 2 ^ (z - 1) ≤ d.toInt - s.toInt
  | .B => d.toNat < s.toNat
  | .E => d = s
  | .BE => d.toNat ≤ s.toNat
  | .S => (d - s).msb = true
  | .P => (List.range 8).countP (d - s).getLsbD % 2 = 0
  | .L => d.toInt < s.toInt
  | .LE => d.toInt ≤ s.toInt

instance (c : Cond) (d s : BitVec z) : Decidable (c.Decides d s) :=
  match c with
  | .O => inferInstanceAs (Decidable (_ ∨ _))
  | .B => inferInstanceAs (Decidable (_ < _))
  | .E => inferInstanceAs (Decidable (_ = _))
  | .BE => inferInstanceAs (Decidable (_ ≤ _))
  | .S => inferInstanceAs (Decidable (_ = _))
  | .P => inferInstanceAs (Decidable (_ = _))
  | .L => inferInstanceAs (Decidable (_ < _))
  | .LE => inferInstanceAs (Decidable (_ ≤ _))

def of (e : Effect z) : Cond → Bool
  | .O => e.of
  | .B => e.cf != 0
  | .E => decide (e.result = 0)
  | .BE => (e.cf ||| byteOf (decide (e.result = 0))) != 0
  | .S => e.result.msb
  | .P => decide ((List.range 8).countP e.result.getLsbD % 2 = 0)
  | .L => e.result.msb ^^ e.of
  | .LE => (e.result.msb ^^ e.of) || decide (e.result = 0)

theorem eval_of_shows {e : Effect z} {cpu : CpuState} (he : e.Shows cpu) (c : Cond) :
    c.eval cpu = c.of e := by
  cases c with
  | O =>
    rw [eval, he.of, of]
    cases e.of <;> rfl
  | B => rw [eval, he.cf, of]
  | E => rw [eval, he.zf, of]
  | BE => rw [eval, he.cf, he.zf, of]
  | S => rw [eval, he.sf, of]
  | P => rw [eval, he.pf, of]
  | L =>
    rw [eval, he.sf, he.of, of]
    cases e.result.msb <;> cases e.of <;> rfl
  | LE =>
    rw [eval, he.sf, he.of, he.zf, of]
    cases e.result.msb <;> cases e.of <;> cases decide (e.result = 0) <;> rfl

/-- A condition reads the carry, the overflow and the result. -/
theorem of_congr {e e' : Effect z} {c : Cond} (hcf : c = .B ∨ c = .BE → e.cf = e'.cf)
    (hof : e.of = e'.of) (hr : e.result = e'.result) : c.of e = c.of e' := by
  cases c with
  | O => exact hof
  | B => rw [of, of, hcf (.inl rfl)]
  | BE => rw [of, of, hcf (.inr rfl), hr]
  | L => rw [of, of, hr, hof]
  | LE => rw [of, of, hr, hof]
  | _ => rw [of, of, hr]

theorem byteOf_ne_zero (b : Bool) : (byteOf b != 0) = b := by
  cases b <;> rfl

theorem byteOf_or (a b : Bool) : ((byteOf a ||| byteOf b) != 0) = (a || b) := by
  cases a <;> cases b <;> rfl

/-- The sign of the difference is wrong exactly where it overflows. -/
theorem msb_xor_overflow (hz : z = 8 ∨ z = 16 ∨ z = 32) (d s : BitVec z) :
    ((Effect.difference d s).result.msb ^^ (Effect.difference d s).of) =
      decide (d.toInt < s.toInt) := by
  have hd := toInt_cases hz d
  have hs := toInt_cases hz s
  have hdl := d.isLt
  have hsl := s.isLt
  rw [Effect.difference, Bool.eq_iff_iff, BitVec.msb_eq_decide, BitVec.toNat_sub]
  simp only [bne_iff_ne, ne_eq, decide_eq_decide, decide_eq_true_eq]
  rcases hz with rfl | rfl | rfl <;> omega

theorem result_eq_zero (d s : BitVec z) : (Effect.difference d s).result = 0 ↔ d = s :=
  sub_eq_zero

/-- After a comparison each condition is the relation it is named after. -/
theorem of_difference (hz : z = 8 ∨ z = 16 ∨ z = 32) (d s : BitVec z) (c : Cond) :
    c.of (.difference d s) = decide (c.Decides d s) := by
  have hzero : decide ((Effect.difference d s).result = 0) = decide (d = s) :=
    decide_eq_decide.mpr (result_eq_zero d s)
  cases c with
  | O => rfl
  | B => exact byteOf_ne_zero _
  | E => exact hzero
  | BE =>
    rw [of, hzero, Effect.difference, byteOf_or, Bool.eq_iff_iff, Bool.or_eq_true,
      decide_eq_true_iff, decide_eq_true_iff, decide_eq_true_iff, ← BitVec.toNat_inj]
    exact Nat.le_iff_lt_or_eq.symm
  | S => exact Bool.decide_eq_true.symm
  | P => rfl
  | L => exact msb_xor_overflow hz d s
  | LE =>
    rw [of, hzero, msb_xor_overflow hz, Bool.eq_iff_iff, Bool.or_eq_true, decide_eq_true_iff,
      decide_eq_true_iff, decide_eq_true_iff, ← BitVec.toInt_inj]
    exact Int.le_iff_lt_or_eq.symm

end Cond

/-! The instructions that compare. -/

namespace Alu

variable {z : ℕ}

/-- The numbers that the flags compare afterwards. The logic instructions compare
their result with zero. -/
def compared (d s : BitVec z) : Alu → BitVec z × BitVec z
  | .and => (d &&& s, 0)
  | .or => (d ||| s, 0)
  | .xor => (d ^^^ s, 0)
  | .test => (d &&& s, 0)
  | .neg => (0, d)
  | .dec => (d, 1)
  | _ => (d, s)

/-- Sums are not comparisons, and `dec` leaves the carry of an earlier one. -/
def Tells (c : Cond) : Alu → Prop
  | .add => False
  | .inc => False
  | .dec => c ≠ .B ∧ c ≠ .BE
  | _ => True

theorem of_logic (hz : z = 8 ∨ z = 16 ∨ z = 32) (r : BitVec z) (c : Cond) :
    c.of (.logic r) = c.of (.difference r 0) := by
  refine Cond.of_congr (fun _ ↦ ?_) ?_ (sub_zero r).symm
  · have hnot : ¬r.toNat < (0 : BitVec z).toNat := by simp
    rw [Effect.difference, decide_eq_false hnot]
    rfl
  · have hr := toInt_cases hz r
    have hlt := r.isLt
    have hzero : (0 : BitVec z).toInt = 0 := BitVec.toInt_zero
    refine (decide_eq_false ?_).symm
    rw [hzero]
    rcases hz with rfl | rfl | rfl <;> omega

theorem of_effect (hz : z = 8 ∨ z = 16 ∨ z = 32) {op : Alu} {c : Cond} (hop : op.Tells c)
    (d s : BitVec z) (cf : BitVec 8) :
    c.of (op.effect d s cf) = decide (c.Decides (op.compared d s).1 (op.compared d s).2) := by
  rw [← Cond.of_difference hz]
  cases op with
  | add => exact hop.elim
  | inc => exact hop.elim
  | sub => rfl
  | cmp => rfl
  | neg => rfl
  | dec => exact Cond.of_congr (fun hc ↦ (hc.elim hop.1 hop.2).elim) rfl rfl
  | _ => exact of_logic hz _ c

end Alu

theorem shows_of_exec {h : Host} {l : Locals} {op : Alu} {src : Operand} {dst : Place} {z : ℕ}
    {slot : Slot} {m m' : Machine} {d s : BitVec z} (hz : z = 8 ∨ z = 16 ∨ z = 32)
    (hdst : dst.slot l z = some slot) (hd : get l dst z m = .ok d m)
    (hs : get l (op.source src) z m = .ok s m)
    (he : exec h l (op.insn src dst z) m = .ok () m') :
    (op.effect d s m.cpu.cf).Shows m'.cpu := by
  cases hop : op.stores with
  | true =>
    obtain ⟨g, hstores, hshows, -⟩ := alu_stores (h := h) hz hdst hop hd hs
    rw [Slot.Stores, he] at hstores
    cases hst : slot.store m (op.effect d s m.cpu.cf).result with
    | none =>
      rw [hst] at hstores
      obtain ⟨_, hstop⟩ := hstores
      cases hstop
    | some m₁ =>
      rw [hst] at hstores
      cases hstores
      exact hshows _
  | false =>
    obtain ⟨g, hexec, hshows, -⟩ := alu_flags (h := h) hz hop hd hs
    rw [he] at hexec
    cases hexec
    exact hshows

/-! The instructions that depend on a condition. -/

inductive Conditional
  | jump (offset : Operand)
  | byte (val : Place)
  | move (dst : Operand) (src : Place) (z : ℕ)

namespace Conditional

def insn (c : Cond) (negated : Bool) : Conditional → Insn
  | .jump offset => .jRel c negated offset
  | .byte val => .setCond c negated val
  | .move dst src z => .cmov c negated dst src z

/-- The jump or move if the condition holds, and otherwise nothing. -/
def act (l : Locals) (b : Bool) : Conditional → Op Unit
  | .jump offset => if b then jmpRel l offset else pure ()
  | .byte val => set l val (byteOf b)
  | .move dst src z => if b then mov l dst src z else pure ()

theorem exec_insn {h : Host} {l : Locals} (k : Conditional) (c : Cond) (negated : Bool)
    (m : Machine) :
    exec h l (k.insn c negated) m = k.act l (c.eval m.cpu ^^ negated) m := by
  cases k <;> rfl

end Conditional

/-! Runs. -/

theorem steady_sameFlags (cpu : CpuState) : Steady fun m ↦ cpu.SameFlags m.cpu where
  memWrite addr w v m hm := by
    rw [memWrite]
    split <;> exact hm
  plain _ hf _ hm := hm.trans (hf _)

theorem Cond.eval_congr {cpu cpu' : CpuState} (h : cpu.SameFlags cpu') (c : Cond) :
    c.eval cpu' = c.eval cpu := by
  have hzf : cpu'.ZF = cpu.ZF := by rw [CpuState.ZF, CpuState.ZF, h.zfRes, h.res, CpuState.flag,
    CpuState.flag, h.eflags]
  have hsf : cpu'.SF = cpu.SF := by rw [CpuState.SF, CpuState.SF, h.sfRes, h.res, CpuState.flag,
    CpuState.flag, h.eflags]
  have hpf : cpu'.PF = cpu.PF := by rw [CpuState.PF, CpuState.PF, h.pfRes, h.res, CpuState.flag,
    CpuState.flag, h.eflags]
  have hcf : cpu'.CF = cpu.CF := h.cf
  have hof : cpu'.OF = cpu.OF := h.of
  cases c <;> simp only [eval, hzf, hsf, hpf, hcf, hof]

/-- Once two numbers are compared, and as long as the program only executes
instructions that leave the flags alone, a conditional instruction acts on the relation
of the two numbers that it is named after. -/
theorem conditional_decides {h₀ h : Host} {op : Alu} {src : Operand} {dst : Place} {z : ℕ}
    {slot : Slot} {l l' : Locals} {m w m₁ m₂ w' : Machine} {d s : BitVec z} {hosts : List Host}
    {k : Conditional} {c : Cond} {negated : Bool} (hz : z = 8 ∨ z = 16 ∨ z = 32)
    (hcmp : m.insn = some (op.insn src dst z, l, w)) (hdst : dst.slot l z = some slot)
    (hd : get l dst z w = .ok d w) (hs : get l (op.source src) z w = .ok s w) (hop : op.Tells c)
    (hstep : cpuStep32 h₀ m = .ok () m₁) (hrun : Run.exec Machine.next m₁ hosts = some m₂)
    (hneutral : Run.Guarded Machine.next (fun m _ ↦ m.Neutral) m₁ hosts)
    (hcond : m₂.insn = some (k.insn c negated, l', w')) :
    exec h l' (k.insn c negated) w' =
      k.act l' (decide (c.Decides (op.compared d s).1 (op.compared d s).2) ^^ negated) w' := by
  obtain ⟨-, savedIp, hexec⟩ := cpuStep32_of_insn (h := h₀) hcmp
  rw [hstep] at hexec
  have hshows : (op.effect d s w.cpu.cf).Shows m₁.cpu := by
    cases he : exec h₀ l (op.insn src dst z) w with
    | ok a m' =>
      rw [he] at hexec
      cases hexec
      exact shows_of_exec hz hdst hd hs he
    | stop i m' =>
      rw [he] at hexec
      cases hexec
    | wrong e =>
      rw [he] at hexec
      cases hexec
  have hflags : m₁.cpu.SameFlags m₂.cpu := by
    have hkeep (t u : Machine) (h : Host) (ht : m₁.cpu.SameFlags t.cpu) (hn : t.Neutral)
        (hu : t.next h = some u) : m₁.cpu.SameFlags u.cpu :=
      ((steady_sameFlags m₁.cpu).step h ht (.inl hn)).state? hu
    have hrefl : m₁.cpu.SameFlags m₁.cpu := ⟨rfl, rfl, rfl, rfl, rfl, rfl, rfl⟩
    exact (Run.Reaches.of_exec hneutral hrun).invariant hrefl hkeep
  obtain ⟨⟨ip, rfl⟩, -⟩ := cpuStep32_of_insn (h := h) hcond
  have heval : c.eval (m₂.withEip ip).cpu = c.eval m₁.cpu :=
    (Cond.eval_congr ⟨rfl, rfl, rfl, rfl, rfl, rfl, rfl⟩ c).trans (Cond.eval_congr hflags c)
  rw [Conditional.exec_insn, heval, Cond.eval_of_shows hshows, Alu.of_effect hz hop]

/-- A machine that is to run `cmp al, 5`, `nop` and `jl`, with all bits of `al` set. -/
def cmpAl : Machine where
  cpu := CpuState.zero.setReg .eax 0xff
  mem := ⟨fun _ ↦ .readWrite, fun a ↦
    if a = 0 then 0x3c else if a = 1 then 5 else if a = 2 then 0x90 else if a = 3 then 0x7c
    else if a = 4 then 0x10 else 0⟩
  rounding := .roundToNearest

theorem conditional_decides_jl : ∃ m₁ m₂ w l w' l' d s,
    cmpAl.insn = some (Alu.cmp.insn .imm (.reg .eax) 8, l, w) ∧
    cpuStep32 Host.zero cmpAl = .ok () m₁ ∧ Run.exec Machine.next m₁ [Host.zero] = some m₂ ∧
    m₂.insn = some ((Conditional.jump .imm).insn .L false, l', w') ∧
    exec Host.zero l' ((Conditional.jump .imm).insn .L false) w' =
      (Conditional.jump .imm).act l' (decide (Cond.L.Decides (z := 8) d s) ^^ false) w' := by
  have hcmp : cmpAl.insn.map (·.1) = some (Alu.cmp.insn .imm (.reg .eax) 8) := by decide +kernel
  have hnop : (cmpAl.next Host.zero).bind (fun m ↦ m.insn.map (·.1)) = some .nop := by
    decide +kernel
  have hjl : (Run.exec Machine.next cmpAl [Host.zero, Host.zero]).bind
      (fun m ↦ m.insn.map (·.1)) = some ((Conditional.jump .imm).insn .L false) := by
    decide +kernel
  have hok : (cpuStep32 Host.zero cmpAl).isOk = true := by decide +kernel
  obtain ⟨⟨_, l, w⟩, hcmp, rfl⟩ := Option.map_eq_some_iff.mp hcmp
  obtain ⟨m₁, hm₁, hnop⟩ := Option.bind_eq_some_iff.mp hnop
  obtain ⟨m₂, hm₂, hjl⟩ := Option.bind_eq_some_iff.mp hjl
  obtain ⟨⟨_, l', w'⟩, hjl, rfl⟩ := Option.map_eq_some_iff.mp hjl
  obtain ⟨⟨_, l₁, w₁⟩, hinsn, rfl⟩ := Option.map_eq_some_iff.mp hnop
  have hstep : cpuStep32 Host.zero cmpAl = .ok () m₁ := by
    rw [Machine.next] at hm₁
    cases hs : cpuStep32 Host.zero cmpAl with
    | ok a m =>
      rw [hs] at hm₁
      cases hm₁
      rfl
    | stop i m =>
      rw [hs] at hok
      cases hok
    | wrong e =>
      rw [hs] at hok
      cases hok
  have hrun : Run.exec Machine.next m₁ [Host.zero] = some m₂ := by
    rw [Run.exec, hm₁] at hm₂
    exact hm₂
  have hneutral : m₁.Neutral := by
    intro insn l w hi
    rw [hinsn] at hi
    cases hi
    trivial
  exact ⟨m₁, m₂, w, l, w', l', _, _, hcmp, hstep, hrun, hjl,
    conditional_decides (.inl rfl) hcmp rfl rfl rfl trivial hstep hrun
      ⟨hneutral, fun _ _ ↦ trivial⟩ hjl⟩

end Isl.Emu
