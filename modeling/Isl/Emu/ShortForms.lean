import Isl.Emu.Prefixes
import Isl.Emu.SameOperand

/-!
Instructions with an encoding of one byte, beside the general encoding with a ModRM
byte that names a register.
-/

namespace Isl.Emu

open Isl.Lib Interp
open Memory (Byte)

def ArithOp.num : ArithOp → ℕ
  | .add => 0
  | .or => 1
  | .adc => 2
  | .sbb => 3
  | .and => 4
  | .sub => 5
  | .xor => 6
  | .cmp => 7

/-- An instruction with its immediate, of which the low bits are in the code. -/
inductive ShortForm
  | movImm8 (r : Reg32) (imm : Byte)
  | movImm (r : Reg32) (imm : Dword)
  | inc (r : Reg32)
  | dec (r : Reg32)
  | push (r : Reg32)
  | pop (r : Reg32)
  -- the general encoding takes the registers in both orders
  | xchg (r : Reg32) (hr : r ≠ .eax) (eaxFirst : Bool)
  | arithImm8 (op : ArithOp) (imm : Byte)
  | arithImm (op : ArithOp) (imm : Dword)

/-- A ModRM byte for two registers. -/
def modrmByte (reg rm : ℕ) : Byte := BitVec.ofNat 8 (0xc0 + 8 * reg + rm)

namespace ShortForm

variable (oz : ℕ)

def immBytes (imm : Dword) : List Byte := Layout.leBytes (oz / 8) imm.toNat

def shortOpcode : ShortForm → Byte
  | .movImm8 r _ => BitVec.ofNat 8 (0xb0 + r.num)
  | .movImm r _ => BitVec.ofNat 8 (0xb8 + r.num)
  | .inc r => BitVec.ofNat 8 (0x40 + r.num)
  | .dec r => BitVec.ofNat 8 (0x48 + r.num)
  | .push r => BitVec.ofNat 8 (0x50 + r.num)
  | .pop r => BitVec.ofNat 8 (0x58 + r.num)
  | .xchg r _ _ => BitVec.ofNat 8 (0x90 + r.num)
  | .arithImm8 op _ => BitVec.ofNat 8 (8 * op.num + 4)
  | .arithImm op _ => BitVec.ofNat 8 (8 * op.num + 5)

def generalOpcode : ShortForm → Byte
  | .movImm8 _ _ => 0xc6
  | .movImm _ _ => 0xc7
  | .inc _ => 0xff
  | .dec _ => 0xff
  | .push _ => 0xff
  | .pop _ => 0x8f
  | .xchg _ _ _ => 0x87
  | .arithImm8 _ _ => 0x80
  | .arithImm _ _ => 0x81

/-- The fields of the ModRM byte of the general encoding. -/
def modrmRegs : ShortForm → Reg32 × Reg32
  | .movImm8 r _ => (.eax, r)
  | .movImm r _ => (.eax, r)
  | .inc r => (.eax, r)
  | .dec r => (.ecx, r)
  | .push r => (.esi, r)
  | .pop r => (.eax, r)
  | .xchg r _ eaxFirst => if eaxFirst then (.eax, r) else (r, .eax)
  | .arithImm8 op _ => (.ofBits (BitVec.ofNat 3 op.num), .eax)
  | .arithImm op _ => (.ofBits (BitVec.ofNat 3 op.num), .eax)

/-- The immediate after either encoding. -/
def tail : ShortForm → List Byte
  | .movImm8 _ imm => [imm]
  | .movImm _ imm => immBytes oz imm
  | .arithImm8 _ imm => [imm]
  | .arithImm _ imm => immBytes oz imm
  | _ => []

/-- The operand size prefix, if the size is not the one of `cpu_step32`. -/
def sizePrefix : List Prefix := if oz = 16 then [.opSize] else []

def short (form : ShortForm) : List Byte :=
  (sizePrefix oz).map Prefix.byte ++ form.shortOpcode :: form.tail oz

def general (form : ShortForm) : List Byte :=
  (sizePrefix oz).map Prefix.byte ++ form.generalOpcode ::
    modrmByte form.modrmRegs.1.num form.modrmRegs.2.num :: form.tail oz

/-! What the decoder makes of them. -/

def shortInsn : ShortForm → Insn
  | .movImm8 r _ => .mov .imm (.reg r) 8
  | .movImm r _ => .mov .imm (.reg r) oz
  | .inc r => .inc (.reg r) oz
  | .dec r => .dec (.reg r) oz
  | .push r => .push (Place.reg r) oz
  | .pop r => .pop (.reg r) oz
  | .xchg r _ _ => .xchg (.reg r) (.reg .eax) oz
  | .arithImm8 op _ => .arith op .imm (.reg .eax) 8
  | .arithImm op _ => .arith op .imm (.reg .eax) oz

def generalInsn : ShortForm → Insn
  | .movImm8 _ _ => .mov .imm .modrmVal 8
  | .movImm _ _ => .mov .imm .modrmVal oz
  | .inc _ => .inc .modrmVal oz
  | .dec _ => .dec .modrmVal oz
  | .push _ => .push Place.modrmVal oz
  | .pop _ => .pop .modrmVal oz
  | .xchg _ _ _ => .xchg .modrmReg .modrmVal oz
  | .arithImm8 op _ => .arith op .imm .modrmVal 8
  | .arithImm op _ => .arith op .imm .modrmVal oz

/-- The local `imm`. -/
def immLocal : ShortForm → Qword
  | .movImm8 _ imm => imm.signExtend 64
  | .movImm _ imm => (BitVec.ofNat oz (Layout.leNat (immBytes oz imm))).setWidth 64
  | .arithImm8 _ imm => imm.signExtend 64
  | .arithImm _ imm => (BitVec.ofNat oz (Layout.leNat (immBytes oz imm))).setWidth 64
  | _ => 0

end ShortForm

section

variable {code : GuestMem} {cpu : CpuState} {c : Cursor} {ip addr : Dword} {w oz : ℕ} {b : Byte}
  {bs : List Byte}

theorem fetch_of_holds (h : code.Holds ip bs) (hw : bs.length = w / 8) :
    fetch code ip w = .ok (BitVec.ofNat w (Layout.leNat bs), ip + BitVec.ofNat 32 (w / 8)) := by
  rw [fetch, GuestMem.tlbRead_of_holds h hw]

theorem fetch_byte_of_holds (h : code.Holds ip (b :: bs)) : fetch code ip 8 = .ok (b, ip + 1) :=
  fetch_byte_of_load (GuestMem.holds_cons.mp h).1

theorem readImm8_of_holds (h : code.Holds c.ip (b :: bs)) :
    readImm8 code c = .ok ((), { c with ip := c.ip + 1, imm := b.signExtend 64 }) := by
  change (readBits code 8 c >>= _) = _
  rw [readBits, fetch_byte_of_holds h]
  rfl

theorem readImm_of_holds (h : code.Holds c.ip bs) (hw : bs.length = w / 8) :
    readImm code w c = .ok ((), { c with
      ip := c.ip + BitVec.ofNat 32 (w / 8),
      imm := (BitVec.ofNat w (Layout.leNat bs)).setWidth 64 }) := by
  change (readBits code w c >>= _) = _
  rw [readBits, fetch_of_holds h hw]
  rfl

theorem readAddr_of_holds (h : code.Holds c.ip bs) (hw : bs.length = 4) :
    readAddr code c = .ok ((), { c with
      ip := c.ip + 4, addr := c.addr + BitVec.ofNat 32 (Layout.leNat bs) }) := by
  change (readBits code 32 c >>= _) = _
  rw [readBits, fetch_of_holds (w := 32) h hw]
  rfl

theorem fields_modrmByte (reg rm : Reg32) :
    Mode.ofBits (modField (modrmByte reg.num rm.num)) = .reg ∧
      regField (modrmByte reg.num rm.num) = reg ∧ rmField (modrmByte reg.num rm.num) = rm := by
  cases reg <;> cases rm <;> exact ⟨rfl, rfl, rfl⟩

theorem readModrm_of_holds {reg rm : Reg32}
    (h : code.Holds c.ip (modrmByte reg.num rm.num :: bs)) :
    readModrm code cpu c = .ok ((), { c with
      ip := c.ip + 1,
      modrm := { c.modrm with type := .modrmReg, reg := reg, base := some rm } }) := by
  obtain ⟨hmode, hreg, hrm⟩ := fields_modrmByte reg rm
  have hdecode : modrmDecode32 code c.ip c.modrm =
      .ok ({ c.modrm with type := .modrmReg, reg := reg, base := some rm }, c.ip + 1) := by
    rw [modrmDecode32, fetch_byte_of_holds h]
    change (if Mode.ofBits (modField (modrmByte reg.num rm.num)) = .reg then _ else _) = _
    rw [if_pos hmode, hmode, hreg, hrm]
    rfl
  have hcompute : modrmCompute code cpu c.ip c.addr c.modrm =
      .ok ({ c.modrm with type := .modrmReg, reg := reg, base := some rm }, c.addr, c.ip + 1) := by
    rw [modrmCompute, hdecode]
    rfl
  rw [readModrm, hcompute]

end

section

variable {code : GuestMem} {cpu : CpuState} {c : Cursor} {oz : ℕ}

/-- How the immediate is read in either encoding. -/
def ShortForm.readTail (code : GuestMem) (oz : ℕ) : ShortForm → Decode Unit
  | .movImm8 _ _ => readImm8 code
  | .movImm _ _ => readImm code oz
  | .arithImm8 _ _ => readImm8 code
  | .arithImm _ _ => readImm code oz
  | _ => pure ()

theorem readTail_of_holds (form : ShortForm) (hc : c.imm = 0)
    (h : code.Holds c.ip (form.tail oz)) :
    ∃ c', form.readTail code oz c = .ok ((), c') ∧ c'.imm = form.immLocal oz ∧
      c'.modrm = c.modrm := by
  have hlen (imm : Dword) : (ShortForm.immBytes oz imm).length = oz / 8 := Layout.leBytes_length _ _
  cases form with
  | movImm8 r imm => exact ⟨_, readImm8_of_holds h, rfl, rfl⟩
  | movImm r imm => exact ⟨_, readImm_of_holds h (hlen imm), rfl, rfl⟩
  | arithImm8 op imm => exact ⟨_, readImm8_of_holds h, rfl, rfl⟩
  | arithImm op imm => exact ⟨_, readImm_of_holds h (hlen imm), rfl, rfl⟩
  | _ => exact ⟨c, rfl, hc, rfl⟩

theorem oneByte_short (form : ShortForm) : oneByte code cpu oz form.shortOpcode =
    (form.readTail code oz >>= fun _ ↦ pure (form.shortInsn oz)) := by
  cases form with
  | arithImm8 op imm =>
    rw [ShortForm.shortOpcode]
    cases op <;> rfl
  | arithImm op imm =>
    rw [ShortForm.shortOpcode]
    cases op <;> rfl
  | xchg r hr eaxFirst =>
    rw [ShortForm.shortOpcode]
    cases r <;> first | exact absurd rfl hr | rfl
  | _ r =>
    rw [ShortForm.shortOpcode]
    cases r <;> rfl

theorem decode_short (form : ShortForm) (hc : c.imm = 0) (h : code.Holds c.ip (form.tail oz)) :
    ∃ c', oneByte code cpu oz form.shortOpcode c = .ok (form.shortInsn oz, c') ∧
      c'.imm = form.immLocal oz := by
  obtain ⟨c', hread, himm, -⟩ := readTail_of_holds form hc h
  refine ⟨c', ?_, himm⟩
  rw [oneByte_short]
  change (form.readTail code oz c >>= _) = _
  rw [hread]
  rfl

theorem decode_general (form : ShortForm) (hc : c.imm = 0)
    (h : code.Holds c.ip
      (modrmByte form.modrmRegs.1.num form.modrmRegs.2.num :: form.tail oz)) :
    ∃ c', oneByte code cpu oz form.generalOpcode c = .ok (form.generalInsn oz, c') ∧
      c'.imm = form.immLocal oz ∧ c'.modrm.type = .modrmReg ∧
        c'.modrm.reg = form.modrmRegs.1 ∧ c'.modrm.base = some form.modrmRegs.2 := by
  have hmodrm : readModrm code cpu c = _ := readModrm_of_holds h
  obtain ⟨c', hread, himm, hmod⟩ := readTail_of_holds form (c := { c with
    ip := c.ip + 1
    modrm := { c.modrm with
      type := .modrmReg, reg := form.modrmRegs.1, base := some form.modrmRegs.2 } }) hc
    (GuestMem.holds_cons.mp h).2
  refine ⟨c', ?_, himm, by rw [hmod], by rw [hmod], by rw [hmod]⟩
  -- what remains after the ModRM byte
  have hrest {d : Unit → Decode Insn} (hd : d () c' = .ok (form.generalInsn oz, c')) :
      (readModrm code cpu c >>= fun r ↦ form.readTail code oz r.2 >>= fun r ↦ d r.1 r.2) =
        .ok (form.generalInsn oz, c') := by
    rw [hmodrm]
    change (form.readTail code oz _ >>= fun r ↦ d r.1 r.2) = _
    rw [hread]
    exact hd
  have hgrp1 {op : ArithOp} {z : ℕ}
      (hreg : form.modrmRegs.1 = .ofBits (BitVec.ofNat 3 op.num)) :
      grp1 .imm .modrmVal z c' = .ok (.arith op .imm .modrmVal z, c') := by
    change Except.ok (Insn.arith (arithOp c'.modrm.opcode) .imm .modrmVal z, c') = _
    rw [hmod, Modrm.opcode, hreg]
    cases op <;> rfl
  cases form with
  | arithImm8 op imm => exact hrest (d := fun _ ↦ grp1 .imm .modrmVal 8) (hgrp1 rfl)
  | arithImm op imm => exact hrest (d := fun _ ↦ grp1 .imm .modrmVal oz) (hgrp1 rfl)
  | movImm8 r imm => exact hrest (d := fun _ ↦ pure (.mov .imm .modrmVal 8)) rfl
  | movImm r imm => exact hrest (d := fun _ ↦ pure (.mov .imm .modrmVal oz)) rfl
  | xchg r hr eaxFirst =>
    change (readModrm code cpu c >>= _) = _
    rw [hmodrm]
    cases hread
    rfl
  | _ r =>
    change (readModrm code cpu c >>= _) = _
    rw [hmodrm]
    cases hread
    rfl

end

/-! The step. -/

section

variable {h : Host} {m : Machine} {oz : ℕ}

/-- The step on an instruction that the decoder knows, behind its size prefix. -/
theorem cpuStepOn_sizePrefix {code : GuestMem} {ip : Dword} {b : Byte} {bs : List Byte} {insn : Insn}
    {Q : Cursor → Prop} (hoz : oz = 16 ∨ oz = 32) (hb : IsOpcode b)
    (hcode : code.Holds ip ((ShortForm.sizePrefix oz).map Prefix.byte ++ b :: bs))
    (hdec : ∀ cpu c, c.imm = 0 → c.modrm.type = .modrmReg → code.Holds c.ip bs →
      ∃ c', oneByte code cpu oz b c = .ok (insn, c') ∧ Q c') :
    ∃ c savedIp, Q c ∧ cpuStepOn h code (m.withEip ip) =
      returned savedIp (exec h ⟨oz, c.addr, c.modrm, c.imm⟩ insn (m.withEip c.ip)) := by
  obtain ⟨hpre, hrest⟩ := GuestMem.holds_append.mp hcode
  obtain ⟨hb', hbs⟩ := GuestMem.holds_cons.mp hrest
  rw [List.length_map] at hrest hbs
  have hone : code.Holds ip ((ShortForm.sizePrefix oz).map Prefix.byte ++ [b]) :=
    GuestMem.holds_append.mpr ⟨hpre, GuestMem.holds_cons.mpr ⟨hb', fun i hi ↦ nomatch hi⟩⟩
  have hfront := cpuStepOn_prefixes h (m := m.withEip ip) hone hb
    (by rcases hoz with rfl | rfl <;> decide)
  set f := (afterPrefixes (m.withEip ip).cpu (ShortForm.sizePrefix oz)).next with hf
  have hfoz : f.oz = oz := by
    rcases hoz with rfl | rfl <;> rfl
  have hlock : f.lock = false := foldl_past_lock rfl
  have hip : f.ip = ip + BitVec.ofNat 32 (ShortForm.sizePrefix oz).length + 1 := by
    rw [hf, Front.next, afterPrefixes, foldl_past_ip]
    rfl
  obtain ⟨c, hdecode, hc⟩ := hdec (m.withEip ip).cpu (.start f) rfl rfl
    (show code.Holds f.ip bs from hip ▸ hbs)
  refine ⟨c, f.savedIp, hc, ?_⟩
  have hstep : f.decode code (m.withEip ip).cpu (some b) = .ok (insn, c) := by
    rw [Front.decode, hlock, hfoz]
    exact hdecode
  rw [hfront]
  simp only [Front.step, hstep, hfoz]
  rfl

theorem map_returned {o o' : Outcome Stop Wrong Machine Unit} (savedIp savedIp' : Dword)
    (hagree : o.Agree sameFault Machine.Alike o') :
    (returned savedIp o).map (Machine.withEip 0) = (returned savedIp' o').map (Machine.withEip 0) := by
  cases o <;> cases o' <;> first | exact hagree.elim | skip
  case ok.ok =>
    obtain ⟨-, hm⟩ := hagree
    exact congrArg (Outcome.ok ()) hm
  case stop.stop i m j m' =>
    obtain ⟨⟨rfl, addr, rfl⟩, hm⟩ := hagree
    have hfault (m : Machine) (ip : Dword) : (m.finish ip (.gpf addr)).map (Machine.withEip 0) =
        .stop intGpf ((m.withEip 0).mapCpu fun cpu ↦ { cpu with segfaultAddr := addr }) := rfl
    rw [returned, returned, hfault, hfault, show m.withEip 0 = m'.withEip 0 from hm]
  case wrong.wrong e e' => exact congrArg Outcome.wrong hagree

end

section

variable {h : Host} {l l' : Locals} {m m' : Machine} {z oz : ℕ}

/-- The byte registers of the numbers four to seven are the other bytes of the first
four registers. -/
theorem slot_regptr (r : Reg32) (hr : z = 8 → r.num < 4) : (regptrFromReg r).slot z = .bits r 0 := by
  by_cases hz : z = 8
  · subst hz
    have hnum := hr rfl
    cases r <;> first | rfl | exact absurd hnum (by decide)
  · rw [Regptr.slot, if_neg hz]
    cases r <;> exact ite_self _

theorem samePlace_modrmVal {r : Reg32} (htype : l'.modrm.type = .modrmReg)
    (hbase : l'.modrm.base = some r) (hr : z = 8 → r.num < 4) :
    SamePlace l l' z (.reg r) .modrmVal := by
  refine ⟨.bits r 0, rfl, ?_⟩
  rw [Place.slot, if_pos htype, Locals.modrmBase, hbase]
  exact congrArg some (slot_regptr r hr)

theorem samePlace_modrmReg {r : Reg32} (hreg : l'.modrm.reg = r) (hr : z = 8 → r.num < 4) :
    SamePlace l l' z (.reg r) .modrmReg := by
  refine ⟨.bits r 0, rfl, ?_⟩
  rw [Place.slot, Locals.modrmRegptr, hreg]
  exact congrArg some (slot_regptr r hr)

theorem xchg_reg {r q : Reg32} (hne : r ≠ q) : xchg l (.reg r) (.reg q) z m =
    .ok () (m.mapCpu fun cpu ↦
      (cpu.setReg r (insertBits (cpu.regs r) 0 ((cpu.regs q).setWidth z))).setReg q
        (insertBits (cpu.regs q) 0 ((cpu.regs r).setWidth z))) := by
  have hq (a : Dword) : (m.cpu.setReg r a).regs q = m.cpu.regs q :=
    Function.update_of_ne hne.symm _ _
  change Outcome.ok () (Machine.mk ((m.cpu.setNamed r ((m.cpu.regs q).setWidth z)).setNamed q
    ((m.cpu.regs r).setWidth z)) m.mem m.rounding) = _
  rw [CpuState.setNamed, CpuState.setNamed, hq]
  rfl

/-- Two registers are exchanged in either order. -/
theorem xchg_comm {r q : Reg32} (hne : r ≠ q) :
    xchg l (.reg r) (.reg q) z = xchg l (.reg q) (.reg r) z := by
  funext m
  have hcomm (a b : Dword) :
      (m.cpu.setReg r a).setReg q b = (m.cpu.setReg q b).setReg r a :=
    congrArg (fun regs ↦ { m.cpu with regs := regs }) (Function.update_comm hne a b m.cpu.regs)
  rw [xchg_reg hne, xchg_reg hne.symm, Machine.mapCpu, Machine.mapCpu, hcomm]

/-- The instructions of the two encodings, on registers by their names and through
the ModRM byte. -/
theorem exec_agree (form : ShortForm) (hz : oz = 16 ∨ oz = 32) (hl : l.oz = oz) (hl' : l'.oz = oz)
    (himm : l.imm = l'.imm) (htype : l'.modrm.type = .modrmReg)
    (hreg : l'.modrm.reg = form.modrmRegs.1) (hbase : l'.modrm.base = some form.modrmRegs.2)
    (hbyte : ∀ r imm, form = .movImm8 r imm → r.num < 4) :
    Agree (exec h l (form.shortInsn oz)) (exec h l' (form.generalInsn oz)) := by
  have h8 : oz ≠ 8 := by omega
  have h128 : oz ≠ 128 := by omega
  have hval {r : Reg32} (hr : form.modrmRegs.2 = r) : SamePlace l l' oz (.reg r) .modrmVal :=
    samePlace_modrmVal htype (hr ▸ hbase) fun h ↦ absurd h h8
  cases form with
  | movImm8 r imm =>
    exact agree_mov (.imm himm) (samePlace_modrmVal htype hbase fun _ ↦ hbyte r imm rfl) (by decide)
  | movImm r imm => exact agree_mov (.imm himm) (hval rfl) h128
  | inc r => exact agree_inc (hval rfl) h128
  | dec r => exact agree_dec (hval rfl) h128
  | push r => exact agree_push (.place (hval rfl)) h128 (hl.trans hl'.symm)
  | pop r => exact agree_pop (hval rfl) h128 (hl.trans hl'.symm)
  | xchg r hr eaxFirst =>
    have hmodrm {q : Reg32} (hq : (ShortForm.xchg r hr eaxFirst).modrmRegs.1 = q) :
        SamePlace l l' oz (.reg q) .modrmReg :=
      samePlace_modrmReg (hreg.trans hq) fun h ↦ absurd h h8
    cases eaxFirst with
    | true =>
      change Agree (xchg l (.reg r) (.reg .eax) oz) _
      rw [xchg_comm hr]
      exact agree_xchg (hmodrm rfl) (hval rfl) h128
    | false => exact agree_xchg (hmodrm rfl) (hval rfl) h128
  | arithImm8 op imm =>
    exact agree_execArith (.imm himm) (samePlace_modrmVal htype hbase fun _ ↦ Nat.zero_lt_succ 3)
      (by decide) op
  | arithImm op imm => exact agree_execArith (.imm himm) (hval rfl) h128 op

/-- The encodings agree, except that `B4` to `B7` write a low byte where the general
encoding writes a second byte. Both must hold the immediate already. -/
def ShortForm.Agrees (cpu : CpuState) : ShortForm → Prop
  | .movImm8 r imm => r.num < 4 ∨ (cpu.regs r).setWidth 8 = imm ∧
      (cpu.regs (regptrFromReg r).reg8.1 >>> 8).setWidth 8 = imm
  | _ => True

theorem insertBits_eq_self {k w : ℕ} (hk : k + w ≤ 32) (x : Dword) (v : BitVec w) :
    insertBits x k v = x ↔ (x >>> k).setWidth w = v := by
  constructor
  · intro hx
    rw [← insertBits_ushiftRight x hk v, hx]
  · rintro rfl
    apply BitVec.eq_of_getLsbD_eq
    intro i hi
    rw [getLsbD_insertBits _ _ _ hi]
    split
    · rename_i hin
      have hlt : i - k < w := by omega
      simp [hlt, Nat.add_sub_cancel' hin.1]
    · rfl

theorem setReg_eq_setReg {cpu : CpuState} {r q : Reg32} (hne : r ≠ q) (a b : Dword) :
    cpu.setReg r a = cpu.setReg q b ↔ a = cpu.regs r ∧ b = cpu.regs q := by
  constructor
  · intro heq
    have hregs : Function.update cpu.regs r a = Function.update cpu.regs q b :=
      congrArg CpuState.regs heq
    have hr := congrFun hregs r
    have hq := congrFun hregs q
    rw [Function.update_self, Function.update_of_ne hne] at hr
    rw [Function.update_self, Function.update_of_ne hne.symm] at hq
    exact ⟨hr, hq.symm⟩
  · rintro ⟨rfl, rfl⟩
    simp only [CpuState.setReg, Function.update_eq_self]

/-- One of two registers gets the byte, so the results differ unless both have it. -/
theorem movImm8_eq_iff {r : Reg32} (hr : ¬r.num < 4) {imm : Byte} (himm : l.imm.setWidth 8 = imm)
    (himm' : l'.imm.setWidth 8 = imm) (htype : l'.modrm.type = .modrmReg)
    (hbase : l'.modrm.base = some r) (ip ip' savedIp savedIp' : Dword) :
    (returned savedIp (exec h l (.mov .imm (.reg r) 8) (m.withEip ip))).map (Machine.withEip 0) =
      (returned savedIp' (exec h l' (.mov .imm .modrmVal 8) (m.withEip ip'))).map
        (Machine.withEip 0) ↔
    (ShortForm.movImm8 r imm).Agrees m.cpu := by
  set q := (regptrFromReg r).reg8.1 with hq
  have hbyte : (regptrFromReg r).reg8.2 = true ∧ r ≠ q := by
    cases r <;> first | exact absurd (by decide) hr | exact ⟨rfl, by decide⟩
  have hshort : exec h l (.mov .imm (.reg r) 8) (m.withEip ip) = .ok () ((m.withEip ip).mapCpu
      fun cpu ↦ cpu.setReg r (insertBits (cpu.regs r) 0 imm)) := by
    subst himm
    rfl
  have hgeneral : exec h l' (.mov .imm .modrmVal 8) (m.withEip ip') = .ok () ((m.withEip ip').mapCpu
      fun cpu ↦ cpu.setReg q (insertBits (cpu.regs q) 8 imm)) := by
    change set l' .modrmVal (l'.imm.setWidth 8) (m.withEip ip') = _
    rw [himm']
    simp only [set, if_pos htype, Locals.modrmBase, hbase, Option.getD_some]
    change Outcome.ok () (Machine.mapCpu _ _) = _
    simp only [CpuState.setRegister, if_true, hbyte.1]
    rfl
  rw [hshort, hgeneral]
  have hmachine : (returned savedIp (.ok () ((m.withEip ip).mapCpu
        fun cpu ↦ cpu.setReg r (insertBits (cpu.regs r) 0 imm)))).map (Machine.withEip 0) =
      (returned savedIp' (.ok () ((m.withEip ip').mapCpu
        fun cpu ↦ cpu.setReg q (insertBits (cpu.regs q) 8 imm)))).map (Machine.withEip 0) ↔
      (m.withEip 0).cpu.setReg r (insertBits (m.cpu.regs r) 0 imm) =
        (m.withEip 0).cpu.setReg q (insertBits (m.cpu.regs q) 8 imm) := by
    refine ⟨fun heq ↦ ?_, fun heq ↦ ?_⟩
    · injection heq with _ heq
      exact congrArg Machine.cpu heq
    · exact congrArg (fun cpu ↦ Outcome.ok () (Machine.mk cpu m.mem m.rounding)) heq
  rw [hmachine, setReg_eq_setReg hbyte.2]
  change insertBits (m.cpu.regs r) 0 imm = m.cpu.regs r ∧ insertBits (m.cpu.regs q) 8 imm = _ ↔ _
  rw [insertBits_eq_self (by decide), show (m.withEip 0).cpu.regs q = m.cpu.regs q from rfl,
    insertBits_eq_self (by decide)]
  rw [ShortForm.Agrees, or_iff_right hr, BitVec.ushiftRight_zero]

theorem isOpcode_short (form : ShortForm) : IsOpcode form.shortOpcode := by
  apply IsOpcode.of_ne
  cases form <;> rw [ShortForm.shortOpcode]
  case movImm8 r imm => cases r <;> decide
  case movImm r imm => cases r <;> decide
  case xchg r hr eaxFirst => cases r <;> decide
  case arithImm8 op imm => cases op <;> decide
  case arithImm op imm => cases op <;> decide
  all_goals
    rename_i r
    cases r <;> decide

theorem isOpcode_general (form : ShortForm) : IsOpcode form.generalOpcode := by
  apply IsOpcode.of_ne
  cases form <;> rw [ShortForm.generalOpcode] <;> decide

/-- The two encodings, each at an address of its own and in whatever memory the code
is, agree exactly where nothing is done to a second byte. -/
theorem short_general_iff (hoz : oz = 16 ∨ oz = 32) (form : ShortForm) {code code' : GuestMem}
    {ip ip' : Dword} (hcode : code.Holds ip (form.short oz))
    (hcode' : code'.Holds ip' (form.general oz)) :
    (cpuStepOn h code (m.withEip ip)).map (Machine.withEip 0) =
      (cpuStepOn h code' (m.withEip ip')).map (Machine.withEip 0) ↔ form.Agrees m.cpu := by
  obtain ⟨c, savedIp, himm, hstep⟩ := cpuStepOn_sizePrefix (h := h) (m := m) hoz
    (isOpcode_short form) hcode fun cpu c hc _ hbs ↦ decode_short form hc hbs
  obtain ⟨c', savedIp', ⟨himm', htype, hreg, hbase⟩, hstep'⟩ :=
    cpuStepOn_sizePrefix (h := h) (m := m) hoz (isOpcode_general form) hcode'
      fun cpu c hc _ hbs ↦ decode_general form hc hbs
  rw [hstep, hstep']
  by_cases hbyte : ∃ r imm, form = .movImm8 r imm ∧ ¬r.num < 4
  · obtain ⟨r, imm, rfl, hr⟩ := hbyte
    have hlow : (imm.signExtend 64).setWidth 8 = imm := by
      apply BitVec.eq_of_getLsbD_eq
      intro i hi
      have h64 : i < 64 := by omega
      rw [BitVec.getLsbD_setWidth, BitVec.getLsbD_signExtend, if_pos hi, decide_eq_true hi,
        decide_eq_true h64, Bool.true_and, Bool.true_and]
    refine movImm8_eq_iff hr ?_ ?_ htype hbase _ _ _ _
    · rw [himm]
      exact hlow
    · rw [himm']
      exact hlow
  · have hagree : Agree (exec h ⟨oz, c.addr, c.modrm, c.imm⟩ (form.shortInsn oz))
        (exec h ⟨oz, c'.addr, c'.modrm, c'.imm⟩ (form.generalInsn oz)) :=
      exec_agree form hoz rfl rfl (himm.trans himm'.symm) htype hreg hbase
        fun r imm hform ↦ not_not.mp fun hr ↦ hbyte ⟨r, imm, hform, hr⟩
    have hagrees : form.Agrees m.cpu := by
      cases form with
      | movImm8 r imm => exact .inl (not_not.mp fun hr ↦ hbyte ⟨r, imm, rfl, hr⟩)
      | _ => trivial
    refine ⟨fun _ ↦ hagrees, fun _ ↦ map_returned _ _ (hagree _ _ ?_)⟩
    rfl

end

/-- A machine with `mov ah, 0x11` in its memory, short at zero and general at eight. -/
def movAh : Machine where
  cpu := .zero
  mem := ⟨fun _ ↦ .readWrite, fun a ↦
    if a = 0 then 0xb4 else if a = 8 then 0xc6 else if a = 9 then 0xc4
    else if a = 1 ∨ a = 10 then 0x11 else 0⟩
  rounding := .roundToNearest

theorem movAh_short : movAh.mem.Holds 0 ((ShortForm.movImm8 .esp 0x11).short 32) := by
  unfold GuestMem.Holds
  decide

theorem movAh_general : movAh.mem.Holds 8 ((ShortForm.movImm8 .esp 0x11).general 32) := by
  unfold GuestMem.Holds
  decide

theorem short_general_iff_movAh :
    (cpuStepOn Host.zero movAh.mem (movAh.withEip 0)).map (Machine.withEip 0) =
      (cpuStepOn Host.zero movAh.mem (movAh.withEip 8)).map (Machine.withEip 0) ↔
    (ShortForm.movImm8 .esp 0x11).Agrees movAh.cpu :=
  short_general_iff (.inr rfl) _ movAh_short movAh_general

/-- The short encoding writes to `esp`. -/
theorem short_general_disagree : ¬∀ (m : Machine) (form : ShortForm) (ip ip' : Dword),
    m.mem.Holds ip (form.short 32) → m.mem.Holds ip' (form.general 32) →
      (cpuStep32 Host.zero (m.withEip ip)).map (Machine.withEip 0) =
        (cpuStep32 Host.zero (m.withEip ip')).map (Machine.withEip 0) := by
  intro hall
  have heq := hall movAh _ 0 8 movAh_short movAh_general
  have hesp := congrArg (fun o : Outcome ℕ Wrong Machine Unit ↦
    o.state?.map fun m ↦ m.cpu.regs .esp) heq
  exact absurd hesp (by decide +kernel)

end Isl.Emu
