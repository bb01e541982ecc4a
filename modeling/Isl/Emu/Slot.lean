import Isl.Emu.Decode

/-!
Where an operand lies. The names of registers, the registers of a ModRM byte and
memory are all read and written as bits of a general register or as bytes.
-/

namespace Isl.Emu

open Isl.Lib

/-- The bits of a general register from `k` on, or the bytes at an address. -/
inductive Slot
  | bits (r : Reg32) (k : ℕ)
  | memory (addr : Dword)
deriving DecidableEq

def Regptr.slot (p : Regptr) (z : ℕ) : Slot :=
  if z = 8 then .bits p.reg8.1 (if p.reg8.2 then 8 else 0)
  else if z = 16 then .bits p.reg16 0
  else .bits p.reg32 0

def Place.slot (l : Locals) (z : ℕ) : Place → Option Slot
  | .modrmReg => some (l.modrmRegptr.slot z)
  | .modrmVal => some (if l.modrm.type = .modrmReg then l.modrmBase.slot z else .memory l.addr)
  | .memAddr => some (.memory l.addr)
  | .reg r => some (.bits r 0)
  | _ => none

namespace Slot

variable {z : ℕ}

/-- The value, if it can be read. -/
def value (m : Machine) (z : ℕ) : Slot → Option (BitVec z)
  | .bits r k => some ((m.cpu.regs r >>> k).setWidth z)
  | .memory addr => m.mem.tlbRead addr z

/-- The machine with the value in place, if it can be written. -/
def store (m : Machine) (v : BitVec z) : Slot → Option Machine
  | .bits r k => some (m.mapCpu fun cpu ↦ cpu.setReg r (insertBits (cpu.regs r) k v))
  | .memory addr => (m.mem.tlbWrite addr v).map fun mem ↦ { m with mem := mem }

def address : Slot → Dword
  | .bits _ _ => 0
  | .memory addr => addr

/-- The bits lie in the register. -/
def Fits (z : ℕ) : Slot → Prop
  | .bits _ k => k + z ≤ 32
  | .memory _ => 8 ∣ z ∧ z ≤ 2 ^ 32

end Slot

theorem getLsbD_insertBits (x : Dword) (k : ℕ) {w : ℕ} (v : BitVec w) {i : ℕ} (hi : i < 32) :
    (insertBits x k v).getLsbD i =
      if k ≤ i ∧ i < k + w then v.getLsbD (i - k) else x.getLsbD i := by
  simp only [insertBits, BitVec.getLsbD_or, BitVec.getLsbD_and, BitVec.getLsbD_not, hi,
    BitVec.getLsbD_shiftLeft, BitVec.getLsbD_setWidth, BitVec.getLsbD_allOnes, decide_true,
    Bool.true_and]
  by_cases hk : i < k
  · have hnot : ¬(k ≤ i ∧ i < k + w) := by omega
    simp [hk, hnot]
  · have hlt : i - k < 32 := by omega
    by_cases hw : i - k < w
    · have hin : k ≤ i ∧ i < k + w := by omega
      simp [hk, hlt, hw, hin]
    · have hnot : ¬(k ≤ i ∧ i < k + w) := by omega
      have hge : v.getLsbD (i - k) = false := BitVec.getLsbD_of_ge v _ (by omega)
      simp [hk, hw, hnot, hge]

theorem insertBits_ushiftRight (x : Dword) {k w : ℕ} (hk : k + w ≤ 32) (v : BitVec w) :
    (insertBits x k v >>> k).setWidth w = v := by
  apply BitVec.eq_of_getLsbD_eq
  intro i hi
  rw [BitVec.getLsbD_setWidth, BitVec.getLsbD_ushiftRight, getLsbD_insertBits x k v (by omega),
    if_pos (by omega), Nat.add_sub_cancel_left]
  simp [hi]

namespace Slot

variable {m m' : Machine} {z : ℕ} {s : Slot} {v : BitVec z}

def Writable (m : Machine) (z : ℕ) : Slot → Prop
  | .bits _ _ => True
  | .memory addr => m.mem.writable addr (z / 8)

theorem writable_iff (v : BitVec z) : s.Writable m z ↔ ∃ m', s.store m v = some m' := by
  cases s with
  | bits r k => exact ⟨fun _ ↦ ⟨_, rfl⟩, fun _ ↦ trivial⟩
  | memory addr =>
    simp only [Writable, store, GuestMem.tlbWrite]
    split
    · exact ⟨fun _ ↦ ⟨_, rfl⟩, fun _ ↦ ‹_›⟩
    · refine ⟨fun hw ↦ absurd hw ‹_›, ?_⟩
      rintro ⟨_, hst⟩
      cases hst

/-- What has been stored is the value. -/
theorem value_store (h : s.store m v = some m') (hfits : s.Fits z) : s.value m' z = some v := by
  cases s with
  | bits r k =>
    cases h
    simp [value, Machine.mapCpu, CpuState.setReg, insertBits_ushiftRight _ hfits]
  | memory addr =>
    obtain ⟨mem, hmem, rfl⟩ := Option.map_eq_some_iff.mp h
    exact GuestMem.tlbRead_tlbWrite hmem hfits.1 hfits.2

theorem value_congr (hregs : m'.cpu.regs = m.cpu.regs) (hmem : m'.mem = m.mem) :
    s.value m' z = s.value m z := by
  cases s with
  | bits r k => rw [value, value, hregs]
  | memory addr => rw [value, value, hmem]

/-- Whether a bit of a register belongs to the slot. -/
def Covers (z : ℕ) (r : Reg32) (i : ℕ) : Slot → Prop
  | .bits r' k => r = r' ∧ k ≤ i ∧ i < k + z
  | .memory _ => False

/-- The bits of the registers outside of the slot stay. -/
theorem regs_store (h : s.store m v = some m') {r : Reg32} {i : ℕ} (hi : i < 32)
    (hout : ¬s.Covers z r i) : (m'.cpu.regs r).getLsbD i = (m.cpu.regs r).getLsbD i := by
  cases s with
  | bits r' k =>
    cases h
    simp only [Machine.mapCpu, CpuState.setReg]
    by_cases hr : r = r'
    · subst hr
      rw [Function.update_self, getLsbD_insertBits _ _ _ hi, if_neg fun hin ↦ hout ⟨rfl, hin⟩]
    · rw [Function.update_of_ne hr]
  | memory addr =>
    obtain ⟨mem, -, rfl⟩ := Option.map_eq_some_iff.mp h
    rfl

/-- The bytes outside of the slot stay. -/
def Touches (z : ℕ) (x : Dword) : Slot → Prop
  | .bits _ _ => False
  | .memory addr => GuestMem.dist addr x < z / 8

theorem load_store (h : s.store m v = some m') {x : Dword} (hout : ¬s.Touches z x) :
    m'.mem.load x = m.mem.load x := by
  cases s with
  | bits r k =>
    cases h
    rfl
  | memory addr =>
    obtain ⟨mem, hmem, rfl⟩ := Option.map_eq_some_iff.mp h
    exact GuestMem.load_tlbWrite_of_outside hmem (Nat.le_of_not_lt hout)

end Slot

/-! Reading and writing operands. -/

section

variable {l : Locals} {m m' : Machine} {z : ℕ} {s : Slot} {p : Place} {what : Operand} {v : BitVec z}

/-- The value of an operand outside of the memory, or the address to read. -/
def Operand.source (l : Locals) (cpu : CpuState) (w : ℕ) : Operand → BitVec w ⊕ Dword
  | .place .modrmReg => .inl (cpu.register l.modrmRegptr w)
  | .place .modrmVal =>
    if l.modrm.type = .modrmReg then .inl (cpu.register l.modrmBase w) else .inr l.addr
  | .place .memAddr => .inr l.addr
  | .place (.reg r) => .inl ((cpu.regs r).setWidth w)
  | .place .eip => .inl (cpu.eip.setWidth w)
  | .place .eflags => .inl (cpu.eflags.setWidth w)
  | .place .gs => .inl (cpu.gs.setWidth w)
  | .imm => .inl (l.imm.setWidth w)
  | .memSi => .inr (cpu.regs .esi)
  | .memDi => .inr (cpu.regs .edi)
  | .const n => .inl (BitVec.ofNat w n)
  | .addr => .inl (l.addr.setWidth w)

theorem get_eq (what : Operand) (w : ℕ) (m : Machine) : get l what w m =
    match what.source l m.cpu w with
    | .inl v => .ok v m
    | .inr addr => memRead addr w m := by
  cases what with
  | place p =>
    cases p with
    | modrmVal =>
      simp only [get, Operand.source]
      split <;> rfl
    | _ => rfl
  | _ => rfl

theorem memRead_apply (addr : Dword) (w : ℕ) (m : Machine) : memRead addr w m =
    match m.mem.tlbRead addr w with
    | some v => .ok v m
    | none => .stop (.gpf addr) m := rfl

theorem register_slot (p : Regptr) (hz : z ≠ 128) (m : Machine) :
    (p.slot z).value m z = some (m.cpu.register p z) := by
  rw [CpuState.register, Regptr.slot, if_neg hz]
  split
  · rfl
  · split <;> simp [Slot.value]

theorem setRegister_slot (p : Regptr) (hz : z ≠ 128) (m : Machine) (v : BitVec z) :
    (p.slot z).store m v = some (m.mapCpu fun cpu ↦ cpu.setRegister p v) := by
  simp only [CpuState.setRegister, Regptr.slot, if_neg hz]
  split
  · rfl
  · split <;> rfl

theorem get_slot (hp : p.slot l z = some s) (hz : z ≠ 128) (m : Machine) : get l p z m =
    match s.value m z with
    | some v => .ok v m
    | none => .stop (.gpf s.address) m := by
  cases p with
  | modrmReg =>
    cases hp
    rw [register_slot _ hz]
    rfl
  | modrmVal =>
    cases hp
    simp only [get]
    split
    · rw [register_slot _ hz]
    · rfl
  | memAddr =>
    cases hp
    rfl
  | reg r =>
    cases hp
    simp [get, Slot.value]
  | _ => cases hp

theorem set_slot (hp : p.slot l z = some s) (hz : z ≠ 128) (v : BitVec z) (m : Machine) :
    set l p v m =
      match s.store m v with
      | some m' => .ok () m'
      | none => .stop (.gpf s.address) m := by
  cases p with
  | modrmReg =>
    cases hp
    rw [setRegister_slot _ hz]
    rfl
  | modrmVal =>
    cases hp
    simp only [set]
    split
    · rw [setRegister_slot _ hz]
      rfl
    · simp only [memWrite, Slot.store]
      cases m.mem.tlbWrite l.addr v <;> rfl
  | memAddr =>
    cases hp
    simp only [set, memWrite, Slot.store]
    cases m.mem.tlbWrite l.addr v <;> rfl
  | reg r =>
    cases hp
    rfl
  | _ => cases hp

/-- What the operand is read from apart from the memory. -/
structure Machine.Same (m m' : Machine) : Prop where
  regs : m'.cpu.regs = m.cpu.regs
  xmm : m'.cpu.xmm = m.cpu.xmm
  eip : m'.cpu.eip = m.cpu.eip
  eflags : m'.cpu.eflags = m.cpu.eflags
  gs : m'.cpu.gs = m.cpu.gs
  mem : m'.mem = m.mem

theorem source_same (h : m.Same m') (what : Operand) (w : ℕ) :
    what.source l m'.cpu w = what.source l m.cpu w := by
  have hreg (p : Regptr) : m'.cpu.register p w = m.cpu.register p w := by
    rw [CpuState.register, CpuState.register, h.regs, h.xmm]
  cases what with
  | place p =>
    cases p <;> simp only [Operand.source, hreg, h.regs, h.eip, h.eflags, h.gs]
  | _ => simp only [Operand.source, h.regs]

theorem get_same (h : get l what z m = .ok v m) (hs : m.Same m') :
    get l what z m' = .ok v m' := by
  rw [get_eq] at h ⊢
  rw [source_same hs]
  cases hsource : what.source l m.cpu z with
  | inl u =>
    rw [hsource] at h
    cases h
    rfl
  | inr addr =>
    rw [hsource] at h
    simp only [memRead_apply, hs.mem] at h ⊢
    cases hread : m.mem.tlbRead addr z with
    | none =>
      rw [hread] at h
      cases h
    | some u =>
      rw [hread] at h
      cases h
      rfl

namespace Machine.Same

variable {m₁ : Machine}

theorem refl (m : Machine) : m.Same m := ⟨rfl, rfl, rfl, rfl, rfl, rfl⟩

theorem trans (h : m.Same m') (h' : m'.Same m₁) : m.Same m₁ :=
  ⟨h'.regs.trans h.regs, h'.xmm.trans h.xmm, h'.eip.trans h.eip, h'.eflags.trans h.eflags,
    h'.gs.trans h.gs, h'.mem.trans h.mem⟩

/-! The fields that the arithmetic writes before it stores its result. -/

theorem setCf {cf : BitVec 8} (h : m.Same m') :
    m.Same (m'.mapCpu fun cpu ↦ { cpu with cf := cf }) := h.trans ⟨rfl, rfl, rfl, rfl, rfl, rfl⟩

theorem setOf {of : BitVec 8} (h : m.Same m') :
    m.Same (m'.mapCpu fun cpu ↦ { cpu with of := of }) := h.trans ⟨rfl, rfl, rfl, rfl, rfl, rfl⟩

theorem setRaw {res : Dword} (h : m.Same m') :
    m.Same (m'.mapCpu fun cpu ↦ { cpu with res := res }) := h.trans ⟨rfl, rfl, rfl, rfl, rfl, rfl⟩

theorem setAf {op1 op2 : Dword} (h : m.Same m') :
    m.Same (m'.mapCpu fun cpu ↦ { cpu with op1 := op1, op2 := op2, afOps := true }) :=
  h.trans ⟨rfl, rfl, rfl, rfl, rfl, rfl⟩

end Machine.Same

theorem get_cases (what : Operand) (w : ℕ) (m : Machine) :
    (∃ v, get l what w m = .ok v m) ∨ ∃ addr, get l what w m = .stop (.gpf addr) m := by
  rw [get_eq]
  cases what.source l m.cpu w with
  | inl v => exact .inl ⟨v, rfl⟩
  | inr addr =>
    simp only [memRead_apply]
    cases m.mem.tlbRead addr w with
    | none => exact .inr ⟨addr, rfl⟩
    | some v => exact .inl ⟨v, rfl⟩

theorem get_state (h : get l what z m = .ok v m') : m' = m := by
  rw [get_eq] at h
  split at h
  · cases h
    rfl
  · rw [memRead_apply] at h
    split at h <;> cases h
    rfl

/-- The slot of a general operand has room. -/
theorem slot_fits (hz : z = 8 ∨ z = 16 ∨ z = 32) (hp : p.slot l z = some s) : s.Fits z := by
  have hreg (q : Regptr) : (q.slot z).Fits z := by
    rw [Regptr.slot]
    split
    · rcases q.reg8 with ⟨r, b⟩
      cases b <;> simp only [Slot.Fits, Bool.false_eq_true, if_false, if_true] <;> omega
    · split <;> simp only [Slot.Fits] <;> omega
  have hmem (addr : Dword) : (Slot.memory addr).Fits z := by
    rcases hz with rfl | rfl | rfl <;> exact ⟨by decide, by decide⟩
  cases p with
  | modrmReg =>
    cases hp
    exact hreg _
  | modrmVal =>
    cases hp
    split
    · exact hreg _
    · exact hmem _
  | memAddr =>
    cases hp
    exact hmem _
  | reg r =>
    cases hp
    simp only [Slot.Fits]
    omega
  | _ => cases hp

end

end Isl.Emu
