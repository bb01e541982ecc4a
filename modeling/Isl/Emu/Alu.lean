import Isl.Emu.Slot

/-!
The arithmetic and logic instructions against the results and flags that the
architecture gives them, for every width and every mix of stored and lazy flags.
-/

namespace Isl.Emu

open Isl.Lib Interp

/-! The architecture. -/

/-- What an instruction leaves: the result and the flags that do not follow from it.
Where `af` is undefined it is `none`. -/
structure Effect (z : ℕ) where
  result : BitVec z
  cf : BitVec 8
  of : Bool
  af : Option Bool

namespace Effect

variable {z : ℕ}

/-- The carry out of the highest bit, the signed sum out of range, and the carry out
of the low four bits. -/
def sum (d s : BitVec z) : Effect z where
  result := d + s
  cf := byteOf (decide (2 ^ z ≤ d.toNat + s.toNat))
  of := decide (d.toInt + s.toInt < -2 ^ (z - 1) ∨ 2 ^ (z - 1) ≤ d.toInt + s.toInt)
  af := some (decide (16 ≤ d.toNat % 16 + s.toNat % 16))

/-- The same for borrows. -/
def difference (d s : BitVec z) : Effect z where
  result := d - s
  cf := byteOf (decide (d.toNat < s.toNat))
  of := decide (d.toInt - s.toInt < -2 ^ (z - 1) ∨ 2 ^ (z - 1) ≤ d.toInt - s.toInt)
  af := some (decide (d.toNat % 16 < s.toNat % 16))

def logic (result : BitVec z) : Effect z where
  result := result
  cf := 0
  of := false
  af := none

/-- The flags as the macros read them, with even parity of the low byte. -/
structure Shows (e : Effect z) (cpu : CpuState) : Prop where
  cf : cpu.CF = e.cf
  of : cpu.OF = byteOf e.of
  zf : cpu.ZF = decide (e.result = 0)
  sf : cpu.SF = e.result.msb
  pf : cpu.PF = decide ((List.range 8).countP e.result.getLsbD % 2 = 0)
  af : ∀ b ∈ e.af, cpu.AF = b

end Effect

inductive Alu
  | add
  | sub
  | cmp
  | and
  | or
  | xor
  | test
  | inc
  | dec
  | neg
deriving DecidableEq

namespace Alu

variable {z : ℕ}

/-- The instruction. Those with one operand have no use for the source. -/
def insn (src : Operand) (dst : Place) (z : ℕ) : Alu → Insn
  | .add => .arith .add src dst z
  | .sub => .arith .sub src dst z
  | .cmp => .arith .cmp src dst z
  | .and => .arith .and src dst z
  | .or => .arith .or src dst z
  | .xor => .arith .xor src dst z
  | .test => .test src dst z
  | .inc => .inc dst z
  | .dec => .dec dst z
  | .neg => .neg dst z

/-- The operand that the architecture combines with the destination. -/
def source (src : Operand) : Alu → Operand
  | .inc => .const 1
  | .dec => .const 1
  | .neg => .const 0
  | _ => src

def stores : Alu → Bool
  | .cmp => false
  | .test => false
  | _ => true

/-- From the destination, the source and the carry flag. -/
def effect (d s : BitVec z) (cf : BitVec 8) : Alu → Effect z
  | .add => .sum d s
  | .sub => .difference d s
  | .cmp => .difference d s
  | .and => .logic (d &&& s)
  | .or => .logic (d ||| s)
  | .xor => .logic (d ^^^ s)
  | .test => .logic (d &&& s)
  | .inc => { Effect.sum d 1 with cf := cf }
  | .dec => { Effect.difference d 1 with cf := cf }
  | .neg => .difference 0 d

end Alu

/-! The lazy flags. -/

section

variable {z : ℕ} {cpu : CpuState} {r d s : BitVec z}

theorem foldl_xor (f : ℕ → Bool) (l : List ℕ) (b : Bool) :
    l.foldl (fun p i ↦ p ^^ f i) b = (b ^^ decide (l.countP f % 2 = 1)) := by
  induction l generalizing b with
  | nil => simp
  | cons i l ih =>
    rw [List.foldl_cons, ih, List.countP_cons, Bool.xor_assoc]
    congr 1
    cases f i
    · simp
    · rcases Nat.mod_two_eq_zero_or_one (l.countP f) with h | h <;>
        simp [h, Nat.add_mod]

theorem parity_signExtend (hz : 8 ≤ z) (r : BitVec z) : parity (r.signExtend 32) =
    decide ((List.range 8).countP r.getLsbD % 2 = 1) := by
  rw [parity, foldl_xor, Bool.false_xor]
  congr 3
  apply List.countP_congr
  intro i hi
  have hlt : i < 8 := List.mem_range.mp hi
  rw [BitVec.getLsbD_signExtend, if_pos (by omega)]
  simp [show i < 32 by omega]

theorem signExtend_eq_zero (hz : z ≤ 32) : r.signExtend 32 = 0 ↔ r = 0 := by
  constructor
  · intro h
    have hr : (r.signExtend 32).setWidth z = r := by
      apply BitVec.eq_of_getLsbD_eq
      intro i hi
      rw [BitVec.getLsbD_setWidth, BitVec.getLsbD_signExtend, if_pos hi]
      simp [hi, show i < 32 by omega]
    rw [← hr, h]
    simp
  · rintro rfl
    rw [BitVec.signExtend_eq_setWidth_of_msb_false (by simp)]
    simp

theorem msb_signExtend (hz : z ≤ 32) : (r.signExtend 32).msb = r.msb := by
  rw [BitVec.msb_signExtend]
  by_cases h : z = 32
  · subst h
    simp [BitVec.msb]
  · simp [show ¬z ≥ 32 by omega]

/-- What is left to check when the flags of the result are lazy. -/
theorem shows_of_res {e : Effect z} (hlo : 8 ≤ z) (hhi : z ≤ 32)
    (hres : cpu.res = e.result.signExtend 32)
    (hlazy : cpu.zfRes = true ∧ cpu.sfRes = true ∧ cpu.pfRes = true)
    (hcf : cpu.cf = e.cf) (hof : cpu.of = byteOf e.of) (haf : ∀ b ∈ e.af, cpu.AF = b) :
    e.Shows cpu where
  cf := hcf
  of := hof
  zf := by
    rw [CpuState.ZF, if_pos hlazy.1, hres, Bool.eq_iff_iff, beq_iff_eq, decide_eq_true_iff]
    exact signExtend_eq_zero hhi
  sf := by rw [CpuState.SF, if_pos hlazy.2.1, hres, msb_signExtend hhi]
  pf := by
    rw [CpuState.PF, if_pos hlazy.2.2, hres, parity_signExtend hlo]
    rcases Nat.mod_two_eq_zero_or_one ((List.range 8).countP e.result.getLsbD) with h | h <;>
      simp [h]
  af := haf

/-- The bit above the low four is the sum of the operands' and a carry. -/
theorem carry_four (hz : 8 ≤ z) (hhi : z ≤ 32) (d s : BitVec z) :
    ((s.setWidth 32 ^^^ d.setWidth 32) ^^^ (d + s).signExtend 32).getLsbD 4 =
      decide (16 ≤ d.toNat % 16 + s.toNat % 16) := by
  have hsum : (d + s).getLsbD 4 = (d.getLsbD 4 ^^ (s.getLsbD 4 ^^ BitVec.carry 4 d s false)) :=
    BitVec.getLsbD_add (by omega) d s
  rw [BitVec.getLsbD_xor, BitVec.getLsbD_xor, BitVec.getLsbD_setWidth, BitVec.getLsbD_setWidth,
    BitVec.getLsbD_signExtend, if_pos (by omega), hsum]
  have hcarry : BitVec.carry 4 d s false = decide (16 ≤ d.toNat % 16 + s.toNat % 16) := rfl
  rw [hcarry]
  cases s.getLsbD 4 <;> cases d.getLsbD 4 <;> simp

theorem borrow_four (hz : 8 ≤ z) (hhi : z ≤ 32) (d s : BitVec z) :
    ((s.setWidth 32 ^^^ d.setWidth 32) ^^^ (d - s).signExtend 32).getLsbD 4 =
      decide (d.toNat % 16 < s.toNat % 16) := by
  have hd : d - s + s = d := BitVec.sub_add_cancel d s
  have h := carry_four hz hhi (d - s) s
  rw [hd] at h
  have hflip : ((s.setWidth 32 ^^^ d.setWidth 32) ^^^ (d - s).signExtend 32).getLsbD 4 =
      ((s.setWidth 32 ^^^ (d - s).setWidth 32) ^^^ d.signExtend 32).getLsbD 4 := by
    simp only [BitVec.getLsbD_xor, BitVec.getLsbD_setWidth, BitVec.getLsbD_signExtend,
      if_pos (show 4 < z by omega)]
    cases s.getLsbD 4 <;> cases d.getLsbD 4 <;> cases (d - s).getLsbD 4 <;> rfl
  rw [hflip, h]
  congr 1
  obtain ⟨k, hk⟩ : 16 ∣ 2 ^ z := Nat.pow_dvd_pow 2 (show 4 ≤ z by omega)
  have hs := s.isLt
  have hdl := d.isLt
  rw [BitVec.toNat_sub, Nat.mod_mod_of_dvd _ ⟨k, hk⟩, eq_iff_iff]
  omega

end

/-! The macros. -/

namespace CpuState

variable (cpu : CpuState)

/-- After `SETAF` and the two overflow macros. -/
def withAlu (op1 op2 res : Dword) (cf of : Bool) : CpuState :=
  { cpu with op1 := op1, op2 := op2, afOps := true, res := res, cf := byteOf cf, of := byteOf of }

/-- After the logic macros. -/
def withLogic (res : Dword) : CpuState :=
  { cpu.setFlag .af false with afOps := false, of := 0, cf := 0, res := res }

/-- After `SETRESFLAGS`. -/
def withRes : CpuState := { cpu with pfRes := true, zfRes := true, sfRes := true }

end CpuState

section

variable {h : Host} {l : Locals} {z : ℕ} {src : Operand} {dst : Place} {slot : Slot}
  {m m' : Machine} {d s : BitVec z}

/-- A macro ends with `r` in its place and the flags as `g` makes them, or at the
fault of the store. -/
def Slot.Stores (slot : Slot) (m : Machine) (r : BitVec z) (g : CpuState → CpuState)
    (o : Outcome Stop Wrong Machine Unit) : Prop :=
  match slot.store m r with
  | some m' => o = .ok () (m'.mapCpu g)
  | none => ∃ m', o = .stop (.gpf slot.address) m'

/-- A change of the processor that has nothing to do with the registers. -/
structure KeepsRegs (g : CpuState → CpuState) : Prop where
  regs : ∀ cpu, (g cpu).regs = cpu.regs
  setReg : ∀ cpu r v, g (cpu.setReg r v) = (g cpu).setReg r v

theorem store_mapCpu {g : CpuState → CpuState} (hg : KeepsRegs g) (r : BitVec z) :
    slot.store (m.mapCpu g) r = (slot.store m r).map (Machine.mapCpu g) := by
  cases slot with
  | bits r' k =>
    simp only [Slot.store, Machine.mapCpu, Option.map_some, hg.regs, hg.setReg]
  | memory addr =>
    simp only [Slot.store, Machine.mapCpu, Option.map_map]
    rfl

theorem setWidth_signExtend (hz : z ≤ 32) (r : BitVec z) : (r.signExtend 32).setWidth z = r := by
  apply BitVec.eq_of_getLsbD_eq
  intro i hi
  rw [BitVec.getLsbD_setWidth, BitVec.getLsbD_signExtend, if_pos hi]
  simp [hi, show i < 32 by omega]

theorem setAf_ok {a b : Operand} {x y : BitVec z} (ha : get l a z m = .ok x m)
    (hb : get l b z m = .ok y m) : setAf l a b z m = .ok () (m.mapCpu fun cpu ↦
      { cpu with op1 := x.setWidth 32, op2 := y.setWidth 32, afOps := true }) := by
  refine Exec.bind_eq ha ?_
  refine Exec.bind_eq rfl ?_
  exact Exec.bind_eq (get_same hb ⟨rfl, rfl, rfl, rfl, rfl, rfl⟩) rfl

/-- The end of the arithmetic macros. -/
theorem setFromRes_stores (hz : z ≤ 32) (hdst : dst.slot l z = some slot) (op1 op2 : Dword)
    (r : BitVec z) (cf of : Bool) :
    slot.Stores m r (fun cpu ↦ (cpu.withAlu op1 op2 (r.signExtend 32) cf of).withRes)
      ((setFromRes l dst z >>= fun _ ↦ setResFlags)
        (m.mapCpu fun cpu ↦ cpu.withAlu op1 op2 (r.signExtend 32) cf of)) := by
  have hg : KeepsRegs fun cpu ↦ cpu.withAlu op1 op2 (r.signExtend 32) cf of :=
    ⟨fun _ ↦ rfl, fun _ _ _ ↦ rfl⟩
  rw [setFromRes, Exec.bind_apply, Exec.get_bind_apply]
  have hr : (m.mapCpu fun cpu ↦ cpu.withAlu op1 op2 (r.signExtend 32) cf of).cpu.res.setWidth z = r :=
    setWidth_signExtend hz r
  rw [hr, set_slot hdst (by omega), store_mapCpu hg, Slot.Stores]
  cases slot.store m r with
  | none => exact ⟨_, rfl⟩
  | some m' => rfl

theorem add_stores (hz : z ≤ 32) (hdst : dst.slot l z = some slot) (hd : get l dst z m = .ok d m)
    (hs : get l src z m = .ok s m) :
    slot.Stores m (d + s) (fun cpu ↦ (cpu.withAlu (s.setWidth 32) (d.setWidth 32)
      ((d + s).signExtend 32) (d.uaddOverflow s) (d.saddOverflow s)).withRes)
      (add l src dst z m) := by
  have h : add l src dst z m = (setFromRes l dst z >>= fun _ ↦ setResFlags)
      (m.mapCpu fun cpu ↦ cpu.withAlu (s.setWidth 32) (d.setWidth 32) ((d + s).signExtend 32)
        (d.uaddOverflow s) (d.saddOverflow s)) := by
    have hm := Machine.Same.refl m
    refine Exec.bind_eq (setAf_ok hs hd) ?_
    refine Exec.bind_eq (get_same hd hm.setAf) ?_
    refine Exec.bind_eq (get_same hs hm.setAf) ?_
    refine Exec.bind_eq (unsignedOverflow_apply _ _ _ _) ?_
    refine Exec.bind_eq (setCf_apply _ _) ?_
    refine Exec.bind_eq (get_same hd hm.setAf.setRaw.setCf) ?_
    refine Exec.bind_eq (get_same hs hm.setAf.setRaw.setCf) ?_
    refine Exec.bind_eq (signedOverflow_apply _ _ _ _) ?_
    refine Exec.bind_eq (setOf_apply _ _) ?_
    simp only [Machine.mapCpu, CpuState.withAlu]
    rfl
  rw [h]
  exact setFromRes_stores hz hdst _ _ _ _ _

theorem sub_stores (hz : z ≤ 32) (hdst : dst.slot l z = some slot) (hd : get l dst z m = .ok d m)
    (hs : get l src z m = .ok s m) :
    slot.Stores m (d - s) (fun cpu ↦ (cpu.withAlu (s.setWidth 32) (d.setWidth 32)
      ((d - s).signExtend 32) (d.usubOverflow s) (d.ssubOverflow s)).withRes)
      (sub l src dst z m) := by
  have h : sub l src dst z m = (setFromRes l dst z >>= fun _ ↦ setResFlags)
      ⟨m.cpu.withAlu (s.setWidth 32) (d.setWidth 32) ((d - s).signExtend 32)
        (d.usubOverflow s) (d.ssubOverflow s), m.mem, m.rounding⟩ := by
    have hm := Machine.Same.refl m
    refine Exec.bind_eq (setAf_ok hs hd) ?_
    refine Exec.bind_eq (get_same hd hm.setAf) ?_
    refine Exec.bind_eq (get_same hs hm.setAf) ?_
    refine Exec.bind_eq (signedOverflow_apply _ _ _ _) ?_
    refine Exec.bind_eq (setOf_apply _ _) ?_
    refine Exec.bind_eq (get_same hd hm.setAf.setRaw.setOf) ?_
    refine Exec.bind_eq (get_same hs hm.setAf.setRaw.setOf) ?_
    refine Exec.bind_eq (unsignedOverflow_apply _ _ _ _) ?_
    refine Exec.bind_eq (setCf_apply _ _) ?_
    simp only [Machine.mapCpu, CpuState.withAlu]
    rfl
  rw [h]
  exact setFromRes_stores hz hdst _ _ _ _ _

theorem neg_stores (hz : z ≤ 32) (hdst : dst.slot l z = some slot)
    (hd : get l dst z m = .ok d m) :
    slot.Stores m (0 - d) (fun cpu ↦ (cpu.withAlu 0 (d.setWidth 32) ((0 - d).signExtend 32)
      ((0#z).usubOverflow d) ((0#z).ssubOverflow d)).withRes) (Interp.neg l dst z m) := by
  have h : Interp.neg l dst z m = (setFromRes l dst z >>= fun _ ↦ setResFlags)
      ⟨m.cpu.withAlu ((0#z).setWidth 32) (d.setWidth 32) ((0 - d).signExtend 32)
        ((0#z).usubOverflow d) ((0#z).ssubOverflow d), m.mem, m.rounding⟩ := by
    have hm := Machine.Same.refl m
    refine Exec.bind_eq (setAf_ok rfl hd) ?_
    refine Exec.bind_eq (get_same hd hm.setAf) ?_
    refine Exec.bind_eq (signedOverflow_apply _ _ _ _) ?_
    refine Exec.bind_eq (setOf_apply _ _) ?_
    refine Exec.bind_eq (get_same hd hm.setAf.setRaw.setOf) ?_
    refine Exec.bind_eq (unsignedOverflow_apply _ _ _ _) ?_
    refine Exec.bind_eq (setCf_apply _ _) ?_
    simp only [Machine.mapCpu, CpuState.withAlu]
    rfl
  rw [h, BitVec.setWidth_zero]
  exact setFromRes_stores hz hdst _ _ _ _ _

theorem cmp_ok {a b : Operand} (hd : get l b z m = .ok d m) (hs : get l a z m = .ok s m) :
    cmp l a b z m = .ok () (m.mapCpu fun cpu ↦ (cpu.withAlu (s.setWidth 32) (d.setWidth 32)
      ((d - s).signExtend 32) (d.usubOverflow s) (d.ssubOverflow s)).withRes) := by
  have hm := Machine.Same.refl m
  refine Exec.bind_eq (setAf_ok hs hd) ?_
  refine Exec.bind_eq (get_same hd hm.setAf) ?_
  refine Exec.bind_eq (get_same hs hm.setAf) ?_
  refine Exec.bind_eq (unsignedOverflow_apply _ _ _ _) ?_
  refine Exec.bind_eq (setCf_apply _ _) ?_
  refine Exec.bind_eq (get_same hd hm.setAf.setRaw.setCf) ?_
  refine Exec.bind_eq (get_same hs hm.setAf.setRaw.setCf) ?_
  refine Exec.bind_eq (signedOverflow_apply _ _ _ _) ?_
  refine Exec.bind_eq (setOf_apply _ _) ?_
  simp only [Machine.mapCpu, CpuState.withAlu, CpuState.withRes]
  rfl

theorem get_stored (hz : z = 8 ∨ z = 16 ∨ z = 32) (hdst : dst.slot l z = some slot) {r : BitVec z}
    (hst : slot.store m r = some m') {g : CpuState → CpuState} (hg : ∀ cpu, (g cpu).regs = cpu.regs) :
    get l dst z (m'.mapCpu g) = .ok r (m'.mapCpu g) := by
  have hsame : slot.value (m'.mapCpu g) z = slot.value m' z := Slot.value_congr (hg _) rfl
  rw [get_slot hdst (by omega), hsame, Slot.value_store hst (slot_fits hz hdst)]

theorem bitwise_stores (hz : z = 8 ∨ z = 16 ∨ z = 32) (hdst : dst.slot l z = some slot)
    (f : {z : ℕ} → BitVec z → BitVec z → BitVec z)
    (hd : get l dst z m = .ok d m) (hs : get l src z m = .ok s m) :
    slot.Stores m (f d s) (fun cpu ↦ (cpu.withLogic ((f d s).signExtend 32)).withRes)
      (bitwise l f src dst z m) := by
  have h : bitwise l f src dst z m = (set l dst (f d s) >>= fun _ ↦ do
      clearCfOfAf
      setRes (← get l dst z)) m := by
    refine Exec.bind_eq hd ?_
    exact Exec.bind_eq hs rfl
  rw [h, Exec.bind_apply, set_slot hdst (by omega), Slot.Stores]
  cases hst : slot.store m (f d s) with
  | none => exact ⟨m, rfl⟩
  | some m' =>
    refine Exec.bind_eq (clearCfOfAf_apply _) ?_
    refine Exec.bind_eq (get_stored hz hdst hst fun _ ↦ rfl) ?_
    rw [setRes_apply]
    simp only [Machine.mapCpu, CpuState.withLogic, CpuState.withRes, CpuState.setFlag]

theorem test_ok (hd : get l dst z m = .ok d m) (hs : get l src z m = .ok s m) :
    test l src dst z m = .ok () (m.mapCpu fun cpu ↦
      (cpu.withLogic ((d &&& s).signExtend 32)).withRes) := by
  refine Exec.bind_eq hd ?_
  refine Exec.bind_eq hs ?_
  refine Exec.bind_eq (setRes_apply _ _) ?_
  rw [clearCfOfAf_apply]
  simp only [Machine.mapCpu, CpuState.withLogic, CpuState.withRes, CpuState.setFlag]

/-! The instructions. -/

theorem shows_sum (hz : z = 8 ∨ z = 16 ∨ z = 32) (cpu : CpuState) (d s : BitVec z) :
    (Effect.sum d s).Shows (cpu.withAlu (s.setWidth 32) (d.setWidth 32) ((d + s).signExtend 32)
      (d.uaddOverflow s) (d.saddOverflow s)).withRes := by
  refine shows_of_res (by omega) (by omega) rfl ⟨rfl, rfl, rfl⟩ ?_ ?_ ?_
  · rfl
  · simp [CpuState.withRes, CpuState.withAlu, Effect.sum, BitVec.saddOverflow, or_comm]
  · rintro b ⟨⟩
    exact carry_four (by omega) (by omega) d s

theorem shows_difference (hz : z = 8 ∨ z = 16 ∨ z = 32) (cpu : CpuState) (d s : BitVec z) :
    (Effect.difference d s).Shows (cpu.withAlu (s.setWidth 32) (d.setWidth 32)
      ((d - s).signExtend 32) (d.usubOverflow s) (d.ssubOverflow s)).withRes := by
  refine shows_of_res (by omega) (by omega) rfl ⟨rfl, rfl, rfl⟩ ?_ ?_ ?_
  · rfl
  · simp [CpuState.withRes, CpuState.withAlu, Effect.difference, BitVec.ssubOverflow, or_comm]
  · rintro b ⟨⟩
    exact borrow_four (by omega) (by omega) d s

/-- `NEG` gives `SETAF` its operands the other way round. -/
theorem shows_negation (hz : z = 8 ∨ z = 16 ∨ z = 32) (cpu : CpuState) (d : BitVec z) :
    (Effect.difference 0 d).Shows (cpu.withAlu 0 (d.setWidth 32) ((0 - d).signExtend 32)
      ((0#z).usubOverflow d) ((0#z).ssubOverflow d)).withRes := by
  refine shows_of_res (by omega) (by omega) rfl ⟨rfl, rfl, rfl⟩ ?_ ?_ ?_
  · rfl
  · exact (shows_difference hz cpu 0 d).of
  · rintro b ⟨⟩
    have hborrow := borrow_four (by omega) (by omega) 0 d
    rw [show (0 : BitVec z) = 0#z from rfl, BitVec.setWidth_zero, BitVec.xor_comm (d.setWidth 32)]
      at hborrow
    exact hborrow

theorem shows_logic (hz : z = 8 ∨ z = 16 ∨ z = 32) (cpu : CpuState) (r : BitVec z) :
    (Effect.logic r).Shows (cpu.withLogic (r.signExtend 32)).withRes :=
  shows_of_res (by omega) (by omega) rfl ⟨rfl, rfl, rfl⟩ rfl rfl (fun _ h ↦ nomatch h)

theorem Slot.Stores.setCf {r : BitVec z} {g : CpuState → CpuState} {x : Op Unit}
    (hx : slot.Stores m r g (x m)) (cf : BitVec 8) :
    slot.Stores m r (fun cpu ↦ { g cpu with cf := cf }) ((x >>= fun _ ↦ setCf cf) m) := by
  rw [Slot.Stores] at hx ⊢
  cases hst : slot.store m r with
  | none =>
    rw [hst] at hx
    obtain ⟨m', hx⟩ := hx
    exact ⟨m', Exec.bind_stop hx _⟩
  | some m' =>
    rw [hst] at hx
    exact Exec.bind_eq hx rfl

theorem Effect.Shows.setCf {e : Effect z} {cpu : CpuState} (he : e.Shows cpu) (cf : BitVec 8) :
    Effect.Shows { e with cf := cf } { cpu with cf := cf } :=
  ⟨rfl, he.of, he.zf, he.sf, he.pf, he.af⟩

/-- The instructions that store end with their result in its place and their flags. -/
theorem alu_stores (hz : z = 8 ∨ z = 16 ∨ z = 32) (hdst : dst.slot l z = some slot) {op : Alu}
    (hop : op.stores = true) (hd : get l dst z m = .ok d m)
    (hs : get l (op.source src) z m = .ok s m) :
    ∃ g, slot.Stores m (op.effect d s m.cpu.cf).result g (exec h l (op.insn src dst z) m) ∧
      (∀ cpu, (op.effect d s m.cpu.cf).Shows (g cpu)) ∧ ∀ cpu, (g cpu).regs = cpu.regs := by
  have hle : z ≤ 32 := by omega
  cases op with
  | add => exact ⟨_, add_stores hle hdst hd hs, fun cpu ↦ shows_sum hz cpu d s, fun _ ↦ rfl⟩
  | sub =>
    exact ⟨_, sub_stores hle hdst hd hs, fun cpu ↦ shows_difference hz cpu d s, fun _ ↦ rfl⟩
  | cmp => cases hop
  | and =>
    exact ⟨_, bitwise_stores hz hdst (· &&& ·) hd hs, fun cpu ↦ shows_logic hz cpu _, fun _ ↦ rfl⟩
  | or =>
    exact ⟨_, bitwise_stores hz hdst (· ||| ·) hd hs, fun cpu ↦ shows_logic hz cpu _, fun _ ↦ rfl⟩
  | xor =>
    exact ⟨_, bitwise_stores hz hdst (· ^^^ ·) hd hs, fun cpu ↦ shows_logic hz cpu _, fun _ ↦ rfl⟩
  | test => cases hop
  | inc =>
    have hone : get l (.const 1) z m = .ok 1 m := rfl
    refine ⟨_, (add_stores hle hdst hd hone).setCf m.cpu.cf, fun cpu ↦ ?_, fun _ ↦ rfl⟩
    exact (shows_sum hz cpu d 1).setCf m.cpu.cf
  | dec =>
    have hone : get l (.const 1) z m = .ok 1 m := rfl
    refine ⟨_, (sub_stores hle hdst hd hone).setCf m.cpu.cf, fun cpu ↦ ?_, fun _ ↦ rfl⟩
    exact (shows_difference hz cpu d 1).setCf m.cpu.cf
  | neg =>
    exact ⟨_, neg_stores hle hdst hd, fun cpu ↦ shows_negation hz cpu d, fun _ ↦ rfl⟩

/-- The others only set flags. -/
theorem alu_flags (hz : z = 8 ∨ z = 16 ∨ z = 32) {op : Alu} (hop : op.stores = false)
    (hd : get l dst z m = .ok d m) (hs : get l (op.source src) z m = .ok s m) :
    ∃ g, exec h l (op.insn src dst z) m = .ok () (m.mapCpu g) ∧
      (op.effect d s m.cpu.cf).Shows (g m.cpu) ∧ ∀ cpu, (g cpu).regs = cpu.regs := by
  cases op with
  | cmp => exact ⟨_, cmp_ok hd hs, shows_difference hz _ d s, fun _ ↦ rfl⟩
  | test => exact ⟨_, test_ok hd hs, shows_logic hz _ _, fun _ ↦ rfl⟩
  | _ => cases hop

/-! What has to be accessible. -/

theorem setAf_reads {a b : Operand} (haf : setAf l a b z m = .ok () m') :
    ∃ x y, get l a z m = .ok x m ∧ get l b z m = .ok y m := by
  obtain ⟨x, m₁, hx, hrest⟩ := Exec.bind_eq_ok.mp haf
  cases get_state hx
  obtain ⟨_, m₂, hmod, hrest'⟩ := Exec.bind_eq_ok.mp hrest
  cases hmod
  obtain ⟨y, m₃, hy, -⟩ := Exec.bind_eq_ok.mp hrest'
  cases get_state hy
  exact ⟨x, y, hx, get_same hy ⟨rfl, rfl, rfl, rfl, rfl, rfl⟩⟩

theorem bitwise_reads {f : {z : ℕ} → BitVec z → BitVec z → BitVec z}
    (hb : bitwise l f src dst z m = .ok () m') :
    ∃ d s, get l dst z m = .ok d m ∧ get l src z m = .ok s m := by
  obtain ⟨d, m₁, hd, hrest⟩ := Exec.bind_eq_ok.mp hb
  cases get_state hd
  obtain ⟨s, m₂, hs, -⟩ := Exec.bind_eq_ok.mp hrest
  cases get_state hs
  exact ⟨d, s, hd, hs⟩

theorem add_reads (ha : add l src dst z m = .ok () m') :
    ∃ d s, get l dst z m = .ok d m ∧ get l src z m = .ok s m := by
  obtain ⟨_, _, haf, -⟩ := Exec.bind_eq_ok.mp ha
  obtain ⟨s, d, hs, hd⟩ := setAf_reads haf
  exact ⟨d, s, hd, hs⟩

theorem sub_reads (ha : sub l src dst z m = .ok () m') :
    ∃ d s, get l dst z m = .ok d m ∧ get l src z m = .ok s m := by
  obtain ⟨_, _, haf, -⟩ := Exec.bind_eq_ok.mp ha
  obtain ⟨s, d, hs, hd⟩ := setAf_reads haf
  exact ⟨d, s, hd, hs⟩

theorem alu_reads {op : Alu} (ho : exec h l (op.insn src dst z) m = .ok () m') :
    ∃ d s, get l dst z m = .ok d m ∧ get l (op.source src) z m = .ok s m := by
  cases op with
  | add => exact add_reads ho
  | sub => exact sub_reads ho
  | cmp =>
    obtain ⟨_, _, haf, -⟩ := Exec.bind_eq_ok.mp ho
    obtain ⟨s, d, hs, hd⟩ := setAf_reads haf
    exact ⟨d, s, hd, hs⟩
  | and => exact bitwise_reads (f := (· &&& ·)) ho
  | or => exact bitwise_reads (f := (· ||| ·)) ho
  | xor => exact bitwise_reads (f := (· ^^^ ·)) ho
  | test =>
    obtain ⟨d, m₁, hd, hrest⟩ := Exec.bind_eq_ok.mp ho
    cases get_state hd
    obtain ⟨s, m₂, hs, -⟩ := Exec.bind_eq_ok.mp hrest
    cases get_state hs
    exact ⟨d, s, hd, hs⟩
  | inc =>
    have hinc : (add l (.const 1) dst z >>= fun _ ↦ setCf m.cpu.cf) m = .ok () m' := ho
    obtain ⟨_, _, ha, -⟩ := Exec.bind_eq_ok.mp hinc
    exact add_reads ha
  | dec =>
    have hdec : (sub l (.const 1) dst z >>= fun _ ↦ setCf m.cpu.cf) m = .ok () m' := ho
    obtain ⟨_, _, ha, -⟩ := Exec.bind_eq_ok.mp hdec
    exact sub_reads ha
  | neg =>
    obtain ⟨_, _, haf, -⟩ := Exec.bind_eq_ok.mp ho
    obtain ⟨s, d, hs, hd⟩ := setAf_reads haf
    exact ⟨d, s, hd, hs⟩

/-- What an instruction has done: the result in its place, the flags, and nothing
else in the registers and the memory. -/
structure Alu.Done (op : Alu) (l : Locals) (dst : Place) (slot : Slot) (m : Machine)
    (d s : BitVec z) (m' : Machine) : Prop where
  result : get l dst z m' = .ok (if op.stores then (op.effect d s m.cpu.cf).result else d) m'
  flags : (op.effect d s m.cpu.cf).Shows m'.cpu
  regs : ∀ r, ∀ i < 32, ¬(op.stores ∧ slot.Covers z r i) →
    (m'.cpu.regs r).getLsbD i = (m.cpu.regs r).getLsbD i
  mem : ∀ x, ¬(op.stores ∧ slot.Touches z x) → m'.mem.load x = m.mem.load x

/-- The result and the flags are the architecture's whenever the operands can be
read and written, and otherwise the instruction does not complete. -/
theorem Alu.correct (h : Host) (l : Locals) (op : Alu) (src : Operand) (dst : Place) {z : ℕ}
    (hz : z = 8 ∨ z = 16 ∨ z = 32) {slot : Slot} (hdst : dst.slot l z = some slot) (m : Machine) :
    (∀ d s, get l dst z m = .ok d m → get l (op.source src) z m = .ok s m →
      (op.stores → slot.Writable m z) →
      ∃ m', exec h l (op.insn src dst z) m = .ok () m' ∧ op.Done l dst slot m d s m') ∧
    ∀ m', exec h l (op.insn src dst z) m = .ok () m' → ∃ d s, get l dst z m = .ok d m ∧
      get l (op.source src) z m = .ok s m ∧ (op.stores → slot.Writable m z) := by
  constructor
  · intro d s hd hs hw
    cases hop : op.stores with
    | true =>
      obtain ⟨g, hstores, hshows, hregs⟩ := alu_stores (h := h) hz hdst hop hd hs
      obtain ⟨m', hst⟩ := (Slot.writable_iff _).mp (hw hop)
      rw [Slot.Stores, hst] at hstores
      refine ⟨_, hstores, ?_, hshows _, fun r i hi hout ↦ ?_, fun x hout ↦ ?_⟩
      · rw [if_pos hop]
        exact get_stored hz hdst hst hregs
      · rw [← Slot.regs_store hst hi fun hin ↦ hout ⟨hop, hin⟩]
        exact congrArg (fun regs ↦ BitVec.getLsbD (regs r) i) (hregs m'.cpu)
      · exact Slot.load_store hst fun hin ↦ hout ⟨hop, hin⟩
    | false =>
      obtain ⟨g, hexec, hshows, hregs⟩ := alu_flags (h := h) hz hop hd hs
      refine ⟨_, hexec, ?_, hshows, fun r i _ _ ↦ ?_, fun _ _ ↦ rfl⟩
      · rw [if_neg (by simp [hop])]
        rw [get_slot hdst (by omega)] at hd ⊢
        have hsame : slot.value (m.mapCpu g) z = slot.value m z := Slot.value_congr (hregs _) rfl
        rw [hsame]
        cases hv : slot.value m z with
        | none =>
          rw [hv] at hd
          cases hd
        | some v =>
          rw [hv] at hd
          cases hd
          rfl
      · exact congrArg (fun regs ↦ BitVec.getLsbD (regs r) i) (hregs m.cpu)
  · intro m' ho
    obtain ⟨d, s, hd, hs⟩ := alu_reads ho
    refine ⟨d, s, hd, hs, fun hop ↦ ?_⟩
    obtain ⟨g, hstores, -, -⟩ := alu_stores (h := h) hz hdst hop hd hs
    rw [Slot.Stores] at hstores
    cases hst : slot.store m (op.effect d s m.cpu.cf).result with
    | none =>
      rw [hst] at hstores
      obtain ⟨_, hstop⟩ := hstores
      rw [hstop] at ho
      cases ho
    | some m₁ => exact (Slot.writable_iff _).mpr ⟨m₁, hst⟩

end

/-- `inc` on the low byte of a register with all bits of the byte set. -/
theorem Alu.correct_inc : (8 = 8 ∨ 8 = 16 ∨ 8 = 32) ∧
    (Place.reg .ecx).slot .zero 8 = some (.bits .ecx 0) ∧
    ∃ m', exec .zero .zero (Alu.inc.insn .imm (.reg .ecx) 8)
        (Machine.zero.mapCpu fun cpu ↦ cpu.setReg .ecx 0x1ff) = .ok () m' ∧
      Alu.inc.Done .zero (.reg .ecx) (.bits .ecx 0)
        (Machine.zero.mapCpu fun cpu ↦ cpu.setReg .ecx 0x1ff) (0xff#8) 1 m' :=
  ⟨.inl rfl, rfl, (Alu.correct .zero .zero .inc .imm (.reg .ecx) (.inl rfl) rfl
    (Machine.zero.mapCpu fun cpu ↦ cpu.setReg .ecx 0x1ff)).1 _ _ rfl rfl fun _ ↦ trivial⟩

end Isl.Emu
