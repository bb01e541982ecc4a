import Isl.Emu.DecodeLocal
import Isl.Emu.ShortForms
import Mathlib.Data.List.GetD

/-!
What the order and the number of prefixes matter to: `0x66` calls the other decoder
anew, which forgets the segment base, and each `0x65` adds it again.
-/

namespace Isl.Emu

open Isl.Lib Interp
open Memory (Byte)

/-- The operand size after the prefixes. -/
def sizeAfter (ps : List Prefix) : ℕ := if ps.count .opSize % 2 = 0 then 32 else 16

/-- The number of `0x65` after the last `0x66`. -/
def gsAfter (ps : List Prefix) : ℕ := (ps.reverse.takeWhile (· ≠ .opSize)).count .gs

section

variable {cpu : CpuState} {ps : List Prefix}

theorem sizeAfter_append (x : Prefix) : sizeAfter (ps ++ [x]) =
    if x = .opSize then (if sizeAfter ps = 32 then 16 else 32) else sizeAfter ps := by
  rw [sizeAfter, sizeAfter, List.count_append]
  cases x
  case opSize =>
    have hone : List.count Prefix.opSize [Prefix.opSize] = 1 := rfl
    rw [hone, if_pos rfl]
    rcases Nat.mod_two_eq_zero_or_one (ps.count .opSize) with hmod | hmod <;>
      simp [Nat.add_mod, hmod]
  all_goals rfl

theorem gsAfter_append (x : Prefix) : gsAfter (ps ++ [x]) =
    match x with
    | .gs => gsAfter ps + 1
    | .opSize => 0
    | _ => gsAfter ps := by
  rw [gsAfter, gsAfter, List.reverse_append]
  cases x <;> simp

theorem oz_afterPrefixes : (afterPrefixes cpu ps).oz = sizeAfter ps := by
  induction ps using List.reverseRecOn with
  | nil => rfl
  | append_singleton ps x ih =>
    rw [afterPrefixes, List.foldl_append, List.foldl_cons, List.foldl_nil, ← afterPrefixes,
      sizeAfter_append, ← ih]
    cases x <;> rfl

theorem addr_afterPrefixes :
    (afterPrefixes cpu ps).addr = BitVec.ofNat 32 (gsAfter ps) * cpu.tlsPtr := by
  induction ps using List.reverseRecOn with
  | nil =>
    change (0 : Dword) = BitVec.ofNat 32 0 * cpu.tlsPtr
    simp
  | append_singleton ps x ih =>
    rw [afterPrefixes, List.foldl_append, List.foldl_cons, List.foldl_nil, ← afterPrefixes,
      gsAfter_append]
    cases x with
    | gs =>
      rw [Front.past, ih, BitVec.ofNat_add, BitVec.add_mul]
      simp
    | opSize =>
      change (0 : Dword) = BitVec.ofNat 32 0 * cpu.tlsPtr
      simp
    | _ => exact ih

end

/-- The same end, where an early return puts back an `eip` of its own. -/
def SameEffect (o o' : Outcome ℕ Wrong Machine Unit) : Prop :=
  o = o' ∨ ∃ (ip ip' : Dword) (m : Machine) (i : Stop), o = m.finish ip i ∧ o' = m.finish ip' i

/-- The address at which prefixes begin that end before `ip`. -/
def startOf (ps : List Prefix) (ip : Dword) : Dword := ip - BitVec.ofNat 32 ps.length

/-- The effect of an instruction is the same behind either sequence of prefixes. The
instruction begins at `ip` in both memories. -/
def Interchangeable (p q : List Prefix) : Prop :=
  ∀ (h : Host) (m : Machine) (code code' : GuestMem) (ip : Dword) (b : Byte), IsOpcode b →
    code.Holds (startOf p ip) (p.map Prefix.byte ++ [b]) →
    code'.Holds (startOf q ip) (q.map Prefix.byte ++ [b]) → SameBytes code code' ip 13 →
    SameEffect (cpuStepOn h code (m.withEip (startOf p ip)))
      (cpuStepOn h code' (m.withEip (startOf q ip)))

section

variable {code code' : GuestMem} {m : Machine} {ip : Dword} {b : Byte} {p q : List Prefix}

/-- Where the decoder is at the opcode. -/
def opcodeCursor (cpu : CpuState) (ps : List Prefix) (ip : Dword) : Cursor :=
  ⟨ip + 1, BitVec.ofNat 32 (gsAfter ps) * cpu.tlsPtr, ⟨.eax, .modrmReg, none, 0, .eax, 0⟩, 0⟩

/-- A step up to where the instruction is decoded. -/
theorem cpuStepOn_opcode (h : Host) (hb : IsOpcode b)
    (hcode : code.Holds (startOf p ip) (p.map Prefix.byte ++ [b])) (hlen : p.length < 2 ^ 32) :
    ∃ savedIp, cpuStepOn h code (m.withEip (startOf p ip)) =
      match oneByte code (m.withEip (startOf p ip)).cpu (sizeAfter p) b
        (opcodeCursor m.cpu p ip) with
      | .error i => (m.withEip (startOf p ip)).finish savedIp i
      | .ok (insn, c) => returned savedIp
        (exec h ⟨sizeAfter p, c.addr, c.modrm, c.imm⟩ insn (m.withEip c.ip)) := by
  have hstep := cpuStepOn_prefixes h (m := m.withEip (startOf p ip)) hcode hb hlen
  have hlock : (afterPrefixes (m.withEip (startOf p ip)).cpu p).lock = false := foldl_past_lock rfl
  have hip : (afterPrefixes (m.withEip (startOf p ip)).cpu p).ip = ip := by
    rw [afterPrefixes, foldl_past_ip]
    exact BitVec.sub_add_cancel _ _
  set f := afterPrefixes (m.withEip (startOf p ip)).cpu p with hf
  have hoz : f.oz = sizeAfter p := oz_afterPrefixes
  have haddr : f.addr = BitVec.ofNat 32 (gsAfter p) * m.cpu.tlsPtr := addr_afterPrefixes
  have hcursor : Cursor.start f.next = opcodeCursor m.cpu p ip := by
    rw [Cursor.start, Front.next, opcodeCursor, hip, haddr]
  have hdecode : f.next.decode code (m.withEip (startOf p ip)).cpu (some b) =
      oneByte code (m.withEip (startOf p ip)).cpu (sizeAfter p) b (opcodeCursor m.cpu p ip) := by
    rw [← hcursor, ← hoz]
    exact if_neg (hlock ▸ Bool.false_ne_true)
  refine ⟨f.savedIp, ?_⟩
  rw [hstep, Front.step, hdecode, ← hoz]
  rfl

theorem length_lt_of_holds {a : Dword} (hb : IsOpcode b)
    (hcode : code.Holds a (p.map Prefix.byte ++ [b])) : p.length < 2 ^ 32 :=
  length_lt_of_last hb.1 hcode

/-- The same size and the same number of `0x65` that count. -/
def Equivalent (p q : List Prefix) : Prop :=
  p.count .opSize % 2 = q.count .opSize % 2 ∧ gsAfter p = gsAfter q

theorem sizeAfter_le : sizeAfter p ≤ 32 := by
  rw [sizeAfter]
  split <;> decide

theorem Equivalent.interchangeable (h : Equivalent p q) : Interchangeable p q := by
  intro host m code code' ip b hb hp hq hsame
  obtain ⟨ipp, hstepp⟩ := cpuStepOn_opcode (m := m) host hb hp (length_lt_of_holds hb hp)
  obtain ⟨ipq, hstepq⟩ := cpuStepOn_opcode (m := m) host hb hq (length_lt_of_holds hb hq)
  have hsize : sizeAfter q = sizeAfter p := by
    rw [sizeAfter, sizeAfter, h.1]
  have hcursor : opcodeCursor m.cpu q ip = opcodeCursor m.cpu p ip := by
    rw [opcodeCursor, opcodeCursor, h.2]
  have hbytes : SameBytes code code' (opcodeCursor m.cpu p ip).ip 12 := hsame.drop (by decide)
  have hlocal : Local code code' 12 0 (oneByte code (m.withEip (startOf p ip)).cpu (sizeAfter p) b)
      (oneByte code' (m.withEip (startOf q ip)).cpu (sizeAfter p) b) :=
    Local.oneByte rfl sizeAfter_le b (Nat.le_refl 12)
  obtain ⟨heq, hdecoded⟩ := hlocal _ hbytes
  rw [hstepp, hstepq, hsize, hcursor, ← heq]
  cases hd : oneByte code (m.withEip (startOf p ip)).cpu (sizeAfter p) b
      (opcodeCursor m.cpu p ip) with
  | error i =>
    rw [hd] at hdecoded
    refine .inr ⟨ipp, ipq, m.withEip (startOf p ip), i, rfl, ?_⟩
    cases i <;> first | rfl | exact hdecoded.elim
  | ok r =>
    dsimp only
    cases exec host ⟨sizeAfter p, r.2.addr, r.2.modrm, r.2.imm⟩ r.1 (m.withEip r.2.ip) with
    | ok a m => exact .inl rfl
    | stop i m => exact .inr ⟨ipp, ipq, m, i, rfl, rfl⟩
    | wrong e => exact .inl rfl

end

/-! Instructions that tell sequences apart. -/

section

variable {p q : List Prefix} {ip : Dword} {bs : List Byte}

/-- A memory with some bytes at an address, and zeros. -/
def codeAt (ip : Dword) (bs : List Byte) : GuestMem :=
  ⟨fun _ ↦ .readWrite, fun a ↦ bs.getD (GuestMem.dist ip a) 0⟩

theorem load_codeAt (a : Dword) :
    (codeAt ip bs).load a = some (bs.getD (GuestMem.dist ip a) 0) := rfl

theorem holds_codeAt (hlen : bs.length ≤ 2 ^ 32) : (codeAt ip bs).Holds ip bs := by
  intro i hi
  have hlt : i < 2 ^ 32 := by omega
  rw [load_codeAt, GuestMem.dist_add ip hlt, List.getD_eq_getElem _ _ hi]

/-- The prefixes and then the instruction, which begins at zero. -/
def codeOf (ps : List Prefix) (insn : List Byte) : GuestMem :=
  codeAt (startOf ps 0) (ps.map Prefix.byte ++ insn)

theorem holds_codeOf {insn : List Byte} (hlen : p.length + insn.length ≤ 2 ^ 32) :
    (codeOf p insn).Holds (startOf p 0) (p.map Prefix.byte) ∧ (codeOf p insn).Holds 0 insn := by
  have hlen' : (p.map Prefix.byte ++ insn).length ≤ 2 ^ 32 := by
    rwa [List.length_append, List.length_map]
  have hall : (codeOf p insn).Holds (startOf p 0) (p.map Prefix.byte ++ insn) :=
    holds_codeAt hlen'
  obtain ⟨hpre, hinsn⟩ := GuestMem.holds_append.mp hall
  refine ⟨hpre, ?_⟩
  rwa [List.length_map, startOf, BitVec.sub_add_cancel] at hinsn

theorem sameBytes_codeOf {insn : List Byte} (hp : p.length + 13 ≤ 2 ^ 32)
    (hq : q.length + 13 ≤ 2 ^ 32) : SameBytes (codeOf p insn) (codeOf q insn) 0 13 := by
  have hload {ps : List Prefix} (hps : ps.length + 13 ≤ 2 ^ 32) {i : ℕ} (hi : i < 13) :
      (codeOf ps insn).load (0 + BitVec.ofNat 32 i) = some (insn.getD i 0) := by
    have haddr : 0 + BitVec.ofNat 32 i =
        startOf ps 0 + BitVec.ofNat 32 (ps.length + i) := by
      rw [startOf, BitVec.ofNat_add, ← BitVec.add_assoc, BitVec.sub_add_cancel]
    have hdist := GuestMem.dist_add (startOf ps 0) (i := ps.length + i) (by omega)
    rw [haddr, codeOf, load_codeAt, hdist, List.getD_append_right _ _ _ _ (by simp),
      List.length_map, Nat.add_sub_cancel_left]
  intro i hi
  rw [hload hp hi, hload hq hi]

theorem holds_opcode {b : Byte} {bs : List Byte} (hp : p.length + 13 ≤ 2 ^ 32)
    (hlen : bs.length ≤ 12) :
    (codeOf p (b :: bs)).Holds (startOf p 0) (p.map Prefix.byte ++ [b]) := by
  have hlen' : p.length + (b :: bs).length ≤ 2 ^ 32 := by
    rw [List.length_cons]
    omega
  obtain ⟨hpre, hinsn⟩ := holds_codeOf hlen'
  refine GuestMem.holds_append.mpr ⟨hpre, GuestMem.holds_cons.mpr ⟨?_, fun i hi ↦ nomatch hi⟩⟩
  rw [List.length_map, startOf, BitVec.sub_add_cancel]
  exact (GuestMem.holds_cons.mp hinsn).1

/-- A step that ends well has the same end behind the other sequence. -/
theorem Interchangeable.ok_eq (h : Interchangeable p q) (hp : p.length + 13 ≤ 2 ^ 32)
    (hq : q.length + 13 ≤ 2 ^ 32) {b : Byte} {bs : List Byte} (hb : IsOpcode b)
    (hlen : bs.length ≤ 12) {m m₁ m₂ : Machine}
    (h₁ : cpuStepOn Host.zero (codeOf p (b :: bs)) (m.withEip (startOf p 0)) = .ok () m₁)
    (h₂ : cpuStepOn Host.zero (codeOf q (b :: bs)) (m.withEip (startOf q 0)) = .ok () m₂) :
    m₁ = m₂ := by
  have heffect := h Host.zero m _ _ 0 b hb (holds_opcode hp hlen) (holds_opcode hq hlen)
    (sameBytes_codeOf hp hq)
  rw [h₁, h₂] at heffect
  rcases heffect with heq | ⟨ip, ip', m, i, hfinish, -⟩
  · cases heq
    rfl
  · cases hfinish

/-- `xchg ecx, eax` moves as many bits as the operand size has. -/
theorem xchg_codeOf (hp : p.length + 13 ≤ 2 ^ 32) (m : Machine) :
    ∃ m', cpuStepOn Host.zero (codeOf p [0x91]) (m.withEip (startOf p 0)) = .ok () m' ∧
      m'.cpu.regs .ecx =
        insertBits (m.cpu.regs .ecx) 0 ((m.cpu.regs .eax).setWidth (sizeAfter p)) := by
  have hbytes : (codeOf p [0x91]).Holds (startOf p 0) (p.map Prefix.byte ++ [0x91]) :=
    holds_opcode hp (by decide)
  obtain ⟨savedIp, hstep⟩ := cpuStepOn_opcode (m := m) Host.zero (.of_ne (by decide)) hbytes
    (by omega)
  have hdecode (code : GuestMem) (cpu : CpuState) (c : Cursor) : oneByte code cpu (sizeAfter p) 0x91 c =
      .ok (.xchg (.reg .ecx) (.reg .eax) (sizeAfter p), c) := rfl
  rw [hdecode] at hstep
  change _ = returned savedIp (xchg _ (.reg .ecx) (.reg .eax) (sizeAfter p) _) at hstep
  rw [xchg_reg (by decide)] at hstep
  refine ⟨_, hstep, ?_⟩
  change (CpuState.setReg _ _ _).regs .ecx = _
  simp [CpuState.setReg, Machine.withEip, Machine.mapCpu]

theorem mov_memAddr {l : Locals} {m : Machine} {v : Byte} {r : Reg32}
    (hv : m.mem.load l.addr = some v) :
    mov l Place.memAddr (.reg r) 8 m = .ok () (m.mapCpu fun cpu ↦ cpu.setNamed r v) := by
  refine Exec.bind_eq (a := v) (t := m) ?_ rfl
  rw [get_eq]
  change memRead l.addr 8 m = _
  rw [memRead_apply, GuestMem.tlbRead_byte, hv]

/-- `mov al, [0]` reads at the segment base. -/
theorem mov_codeOf (hp : p.length + 13 ≤ 2 ^ 32) {m : Machine} {v : Byte}
    (hv : m.mem.load (BitVec.ofNat 32 (gsAfter p) * m.cpu.tlsPtr) = some v) :
    ∃ m', cpuStepOn Host.zero (codeOf p [0xa0, 0, 0, 0, 0]) (m.withEip (startOf p 0)) = .ok () m' ∧
      m'.cpu.regs .eax = insertBits (m.cpu.regs .eax) 0 v := by
  have hlen : p.length + [(0xa0 : Byte), 0, 0, 0, 0].length ≤ 2 ^ 32 := by
    change p.length + 5 ≤ 2 ^ 32
    omega
  have hbytes : (codeOf p [0xa0, 0, 0, 0, 0]).Holds (startOf p 0)
      (p.map Prefix.byte ++ [0xa0]) := holds_opcode hp (by decide)
  obtain ⟨savedIp, hstep⟩ := cpuStepOn_opcode (m := m) Host.zero (.of_ne (by decide)) hbytes
    (by omega)
  have hdecode (code : GuestMem) (cpu : CpuState) (c : Cursor) (hc : code.Holds c.ip [0, 0, 0, 0]) :
      oneByte code cpu (sizeAfter p) 0xa0 c =
        .ok (.mov Place.memAddr (.reg .eax) 8, { c with ip := c.ip + 4, addr := c.addr + 0 }) := by
    change (readAddr code c >>= _) = _
    rw [readAddr_of_holds hc rfl]
    rfl
  have hload : m.mem.load ((opcodeCursor m.cpu p 0).addr + 0) = some v := by
    rw [← hv]
    exact congrArg m.mem.load (BitVec.add_zero _)
  have hcode : (codeOf p [0xa0, 0, 0, 0, 0]).Holds (opcodeCursor m.cpu p 0).ip [0, 0, 0, 0] :=
    (GuestMem.holds_cons.mp (holds_codeOf hlen).2).2
  rw [hdecode _ _ _ hcode] at hstep
  have hexec := mov_memAddr (l := ⟨sizeAfter p, (opcodeCursor m.cpu p 0).addr + 0,
    (opcodeCursor m.cpu p 0).modrm, (opcodeCursor m.cpu p 0).imm⟩) (r := .eax)
    (m := m.withEip ((opcodeCursor m.cpu p 0).ip + 4)) hload
  refine ⟨_, hstep.trans (congrArg (returned savedIp) hexec), ?_⟩
  change (CpuState.setReg _ _ _).regs .eax = _
  simp [CpuState.setReg, Machine.withEip, Machine.mapCpu]

theorem gsAfter_le (p : List Prefix) : gsAfter p ≤ p.length :=
  calc gsAfter p ≤ (p.reverse.takeWhile (· ≠ .opSize)).length := List.count_le_length
    _ ≤ p.reverse.length := (List.takeWhile_prefix _).length_le
    _ = p.length := List.length_reverse

theorem Interchangeable.size (h : Interchangeable p q) (hp : p.length + 13 ≤ 2 ^ 32)
    (hq : q.length + 13 ≤ 2 ^ 32) : p.count .opSize % 2 = q.count .opSize % 2 := by
  obtain ⟨m₁, h₁, hecx₁⟩ := xchg_codeOf hp (Machine.zero.mapCpu (·.setReg .eax 0x10000))
  obtain ⟨m₂, h₂, hecx₂⟩ := xchg_codeOf hq (Machine.zero.mapCpu (·.setReg .eax 0x10000))
  obtain rfl := h.ok_eq hp hq (.of_ne (by decide)) (by decide) h₁ h₂
  let moved (z : ℕ) : Dword := insertBits 0 0 ((0x10000 : Dword).setWidth z)
  have hmoved : moved (sizeAfter p) = moved (sizeAfter q) := hecx₁.symm.trans hecx₂
  by_cases hpc : p.count .opSize % 2 = 0 <;> by_cases hqc : q.count .opSize % 2 = 0
  · rw [hpc, hqc]
  · rw [sizeAfter, sizeAfter, if_pos hpc, if_neg hqc] at hmoved
    exact absurd hmoved (by decide)
  · rw [sizeAfter, sizeAfter, if_neg hpc, if_pos hqc] at hmoved
    exact absurd hmoved (by decide)
  · rw [Nat.mod_two_ne_zero.mp hpc, Nat.mod_two_ne_zero.mp hqc]

theorem Interchangeable.gs (h : Interchangeable p q) (hp : p.length + 13 ≤ 2 ^ 32)
    (hq : q.length + 13 ≤ 2 ^ 32) : gsAfter p = gsAfter q := by
  -- a byte of its own at the address behind `p`
  let mem : GuestMem := ⟨fun _ ↦ .readWrite, fun a ↦ if a = BitVec.ofNat 32 (gsAfter p) then 1 else 0⟩
  let m : Machine := ⟨{ CpuState.zero with tlsPtr := 1 }, mem, .roundToNearest⟩
  have hload (n : ℕ) : m.mem.load (BitVec.ofNat 32 n * m.cpu.tlsPtr) =
      some (if BitVec.ofNat 32 n = BitVec.ofNat 32 (gsAfter p) then 1 else 0) := by
    rw [show m.cpu.tlsPtr = 1#32 from rfl, BitVec.mul_one]
    rfl
  obtain ⟨m₁, h₁, heax₁⟩ := mov_codeOf hp (hload (gsAfter p))
  obtain ⟨m₂, h₂, heax₂⟩ := mov_codeOf hq (hload (gsAfter q))
  obtain rfl := h.ok_eq hp hq (.of_ne (by decide)) (by decide) h₁ h₂
  have hbyte := heax₁.symm.trans heax₂
  rw [if_pos rfl] at hbyte
  by_cases heq : BitVec.ofNat 32 (gsAfter q) = BitVec.ofNat 32 (gsAfter p)
  · have hpn := gsAfter_le p
    have hqn := gsAfter_le q
    have hnum := congrArg BitVec.toNat heq
    rw [BitVec.toNat_ofNat, BitVec.toNat_ofNat, Nat.mod_eq_of_lt (by omega),
      Nat.mod_eq_of_lt (by omega)] at hnum
    exact hnum.symm
  · rw [if_neg heq] at hbyte
    change insertBits (0 : Dword) 0 (1 : Byte) = insertBits 0 0 (0 : Byte) at hbyte
    exact absurd hbyte (by decide)

/-- The effect of an instruction depends on the prefixes before it in just two ways. -/
theorem interchangeable_iff (hp : p.length + 13 ≤ 2 ^ 32) (hq : q.length + 13 ≤ 2 ^ 32) :
    Interchangeable p q ↔ Equivalent p q :=
  ⟨fun h ↦ ⟨h.size hp hq, h.gs hp hq⟩, Equivalent.interchangeable⟩

theorem interchangeable_iff_gs : Interchangeable [.gs, .opSize] [.opSize, .gs] ↔
    Equivalent [.gs, .opSize] [.opSize, .gs] :=
  interchangeable_iff (by decide) (by decide)

/-- A `0x66` after `0x65` loses the segment base. -/
theorem not_interchangeable : ¬∀ p q : List Prefix, (.gs ∈ p ↔ .gs ∈ q) →
    (.opSize ∈ p ↔ .opSize ∈ q) → Interchangeable p q := by
  intro hall
  have h := hall [.gs, .opSize] [.opSize, .gs] (by decide) (by decide)
  exact absurd (h.gs (by decide) (by decide)) (by decide)

end

end Isl.Emu
