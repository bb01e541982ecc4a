import Isl.Emu.MemWrite
import Isl.Emu.Written

/-!
The stack: `PUSH` and `POP` of a register, `CALL` and `RET`. In the macros the operand of
`POP` is set before `esp` is counted up, and the operand of `CALL` is read after the return
address is pushed.
-/

namespace Isl.Emu

open Isl.Lib Interp

/-! The architecture. -/

/-- Where the next push goes. -/
def Machine.nextSlot (m : Machine) : Slot := .memory (m.cpu.regs .esp - 4)

/-- The memory apart from the pushed slot. -/
def SameOutside (m m' : Machine) : Prop :=
  m'.mem.perm = m.mem.perm ∧ ∀ x, ¬m.nextSlot.Touches 32 x → m'.mem.load x = m.mem.load x

/-- A push and a pop at `ip`, which leave the processor as it was. -/
def PushPopRight (h : Host) (l l' : Locals) (src dst : Place) (m : Machine) (ip : Dword) : Prop :=
  ∃ m₁ m₂, exec h l (.push src 32) m = .ok () m₁ ∧
    exec h l' (.pop dst 32) (m₁.withEip ip) = .ok () m₂ ∧
    m₂.cpu = { m.cpu with eip := ip } ∧ SameOutside m m₂

/-- `RET`, wherever it is, leads back behind the call. -/
def ReturnsTo (h : Host) (m m₁ : Machine) : Prop :=
  ∀ (l : Locals) (ip : Dword), l.oz = 32 → ∃ m₂,
    exec h l (.retNear (.const 0)) (m₁.withEip ip) = .ok () m₂ ∧ m₂.cpu = m.cpu ∧ SameOutside m m₂

/-- A call to `target`. -/
def CallRight (h : Host) (l : Locals) (insn : Insn) (m : Machine) (target : Dword) : Prop :=
  ∃ m₁, exec h l insn m = .ok () m₁ ∧ m₁.cpu.eip = target ∧ ReturnsTo h m m₁

/-- No push of `v` changes what the slot holds: it is not `esp`, and the bytes of it in the
pushed slot are those of `v` already. -/
def Slot.Spared (m : Machine) (v : Dword) : Slot → Prop
  | .bits r _ => r ≠ .esp
  | .memory addr => ∀ i < 4, ∀ j < 4,
      addr + BitVec.ofNat 32 i = m.cpu.regs .esp - 4 + BitVec.ofNat 32 j →
      m.mem.load (addr + BitVec.ofNat 32 i) = (Layout.leBytes 4 v.toNat)[j]?

/-! Pushing and popping. -/

section

variable {h : Host} {l l' : Locals} {src dst loc : Place} {slot : Slot} {m m₁ : Machine} {g : GuestMem}
  {v ip : Dword} {r : Reg32}

/-- After a push, with `g` for the memory. -/
def Machine.pushed (g : GuestMem) (m : Machine) : Machine :=
  ({ m with mem := g } : Machine).mapCpu fun cpu ↦ cpu.setReg .esp (cpu.regs .esp - 4)

theorem tlbWrite_of_writable (hw : m.nextSlot.Writable m 32) (v : Dword) :
    ∃ g, m.mem.tlbWrite (m.cpu.regs .esp - 4) v = some g := ⟨_, if_pos hw⟩

theorem push_ok {what : Operand} (hoz : l.oz = 32) (hv : get l what 32 m = .ok v m)
    (hg : m.mem.tlbWrite (m.cpu.regs .esp - 4) v = some g) :
    push l what 32 m = .ok () (m.pushed g) := by
  refine Exec.bind_eq hv ((Exec.get_bind_apply _).trans ?_)
  rw [hoz]
  exact Exec.bind_eq (memWrite_ok hg) rfl

/-- The pushed value lies on top of the stack. -/
theorem tlbRead_pushed (hg : m.mem.tlbWrite (m.cpu.regs .esp - 4) v = some g) :
    g.tlbRead (m.cpu.regs .esp - 4) 32 = some v :=
  GuestMem.tlbRead_tlbWrite hg (by decide) (by decide)

theorem sameOutside_pushed (hg : m.mem.tlbWrite (m.cpu.regs .esp - 4) v = some g)
    (hmem : m₁.mem = g) : SameOutside m m₁ := by
  rw [SameOutside, hmem]
  refine ⟨?_, fun x hout ↦ GuestMem.load_tlbWrite_of_outside hg (Nat.le_of_not_lt hout)⟩
  rw [GuestMem.tlbWrite] at hg
  split at hg
  · cases hg
    exact GuestMem.perm_userWrite _ _ _
  · cases hg

theorem esp_back (x : Dword) : x - 4 + 4 = x := BitVec.sub_add_cancel x 4

theorem insertBits_full (x v : Dword) : insertBits x 0 v = v := by
  have h := insertBits_ushiftRight x (Nat.le_refl (0 + 32)) v
  simpa using h

theorem pop_ok {m' : Machine} (hoz : l.oz = 32)
    (hread : m.mem.tlbRead (m.cpu.regs .esp) 32 = some v) (hset : set l dst v m = .ok () m') :
    pop l dst 32 m = .ok () (m'.mapCpu fun cpu ↦ cpu.setReg .esp (cpu.regs .esp + 4)) := by
  refine (Exec.get_bind_apply _).trans (Exec.bind_eq (memRead_ok hread) (Exec.bind_eq hset ?_))
  rw [hoz]
  rfl

theorem set_register (hdst : dst.slot l 32 = some (.bits r 0)) :
    set l dst v m = .ok () (m.mapCpu fun cpu ↦ cpu.setReg r v) := by
  rw [set_slot hdst (by decide), Slot.store]
  simp only [insertBits_full]

theorem update_back (regs : Reg32 → Dword) (hr : r ≠ .esp) :
    Function.update (Function.update (Function.update regs .esp (regs .esp - 4)) r (regs r)) .esp
      (Function.update (Function.update regs .esp (regs .esp - 4)) r (regs r) .esp + 4) = regs := by
  funext q
  by_cases hq : q = .esp
  · rw [hq, Function.update_self, Function.update_of_ne hr.symm, Function.update_self, esp_back]
  · rw [Function.update_of_ne hq]
    by_cases hqr : q = r
    · rw [hqr, Function.update_self]
    · rw [Function.update_of_ne hqr, Function.update_of_ne hq]

/-- A register comes back, unless it is the one that counts. -/
theorem push_pop_iff (hoz : l.oz = 32) (hoz' : l'.oz = 32) (hsrc : src.slot l 32 = some (.bits r 0))
    (hdst : dst.slot l' 32 = some (.bits r 0)) (hw : m.nextSlot.Writable m 32) :
    PushPopRight h l l' src dst m ip ↔ r ≠ .esp := by
  obtain ⟨g, hg⟩ := tlbWrite_of_writable hw (m.cpu.regs r)
  have hval : get l src 32 m = .ok (m.cpu.regs r) m := by
    rw [get_slot hsrc (by decide), Slot.value]
    simp
  have hpush := push_ok hoz hval hg
  have hread : ((m.pushed g).withEip ip).mem.tlbRead (((m.pushed g).withEip ip).cpu.regs .esp) 32 =
      some (m.cpu.regs r) := tlbRead_pushed (m := m) hg
  have hpop := pop_ok hoz' hread (set_register hdst)
  constructor
  · rintro ⟨m₁, m₂, hpush', hpop', hcpu, -⟩ rfl
    rw [show exec h l (.push src 32) m = push l src 32 m from rfl, hpush] at hpush'
    cases hpush'
    rw [show exec h l' (.pop dst 32) _ = pop l' dst 32 _ from rfl, hpop] at hpop'
    cases hpop'
    have hesp : m.cpu.regs .esp + 4 = m.cpu.regs .esp := congrArg (fun cpu ↦ cpu.regs .esp) hcpu
    bv_omega
  · intro hr
    refine ⟨_, _, hpush, hpop, ?_, sameOutside_pushed hg rfl⟩
    exact congrArg (fun regs ↦ { m.cpu with regs := regs, eip := ip }) (update_back m.cpu.regs hr)

/-! Calls. -/

theorem fixEip_ok (hoz : l.oz = 32) (m : Machine) : fixEip l m = .ok () m := by
  rw [fixEip, hoz]
  rfl

theorem ret_back (h : Host) (hg : m.mem.tlbWrite (m.cpu.regs .esp - 4) m.cpu.eip = some g)
    (target : Dword) : ReturnsTo h m ((m.pushed g).withEip target) := by
  intro l ip hoz
  obtain ⟨m₁, hm₁⟩ : ∃ m₁, m₁ = ((m.pushed g).withEip target).withEip ip := ⟨_, rfl⟩
  have hread : m₁.mem.tlbRead (m₁.cpu.regs .esp) 32 = some m.cpu.eip := by
    rw [hm₁]
    exact tlbRead_pushed (m := m) hg
  obtain ⟨m₂, hm₂⟩ : ∃ m₂, m₂ = (m₁.withEip (m.cpu.eip.setWidth 32)).mapCpu fun cpu ↦
      cpu.setReg .esp (cpu.regs .esp + 4) := ⟨_, rfl⟩
  have hpop : pop l .eip 32 m₁ = .ok () m₂ := hm₂ ▸ pop_ok hoz hread rfl
  have hret : exec h l (.retNear (.const 0)) m₁ =
      .ok () (m₂.mapCpu fun cpu ↦ cpu.setReg .esp (cpu.regs .esp + 0)) :=
    Exec.bind_eq hpop (Exec.bind_eq (fixEip_ok hoz m₂) rfl)
  refine ⟨_, hm₁ ▸ hret, ?_, sameOutside_pushed hg ?_⟩
  · rw [hm₂, hm₁]
    simp [Machine.pushed, Machine.withEip, Machine.mapCpu, CpuState.setReg]
  · rw [hm₂, hm₁]
    rfl

theorem get_eip (l : Locals) (m : Machine) : get l Place.eip 32 m = .ok m.cpu.eip m :=
  congrArg (fun v ↦ Outcome.ok v m) (BitVec.setWidth_eq m.cpu.eip)

theorem callRel_right (h : Host) (hoz : l.oz = 32) (hw : m.nextSlot.Writable m 32) :
    CallRight h l (.callRel .imm) m (m.cpu.eip + l.imm.setWidth 32) := by
  obtain ⟨g, hg⟩ := tlbWrite_of_writable hw m.cpu.eip
  refine ⟨(m.pushed g).withEip (m.cpu.eip + l.imm.setWidth 32), ?_, rfl, ret_back h hg _⟩
  obtain ⟨oz, addr, modrm, imm⟩ := l
  obtain rfl : oz = 32 := hoz
  refine Exec.bind_eq (push_ok rfl (get_eip _ m) hg) (Exec.bind_eq rfl (Exec.bind_eq rfl ?_))
  rw [fixEip_ok rfl, BitVec.setWidth_eq]
  rfl

/-- What the slot holds is there after the push just where it is spared. -/
theorem value_pushed_iff (hfits : slot.Fits 32) (hval : slot.value m 32 = some v) {u : Dword}
    (hg : m.mem.tlbWrite (m.cpu.regs .esp - 4) u = some g) :
    slot.value (m.pushed g) 32 = some v ↔ slot.Spared m u := by
  cases slot with
  | bits r k =>
    obtain rfl : k = 0 := Nat.le_zero.mp (Nat.le_of_add_le_add_right (Nat.le_trans hfits (by decide)))
    rw [← hval]
    by_cases hr : r = .esp
    · refine iff_of_false (fun h ↦ ?_) (not_not_intro hr)
      simp [hr, Slot.value, Machine.pushed, Machine.mapCpu, CpuState.setReg] at h
    · refine iff_of_true ?_ hr
      simp [hr, Slot.value, Machine.pushed, Machine.mapCpu, CpuState.setReg]
  | memory addr =>
    have hlen : (Layout.leBytes 4 u.toNat).length = 4 := Layout.leBytes_length _ _
    have htop : g.Holds (m.cpu.regs .esp - 4) (Layout.leBytes 4 u.toNat) :=
      GuestMem.holds_of_tlbRead (tlbRead_pushed hg) (by decide)
    have hbyte (j : ℕ) (hj : j < 4) : g.load (m.cpu.regs .esp - 4 + BitVec.ofNat 32 j) =
        (Layout.leBytes 4 u.toNat)[j]? := by
      rw [htop j (hlen.symm ▸ hj), List.getElem?_eq_getElem]
    have hpushed : Slot.value (m.pushed g) 32 (.memory addr) = g.tlbRead addr 32 := rfl
    rw [hpushed]
    constructor
    · intro hread i hi j hj heq
      rw [← GuestMem.load_eq_of_tlbRead hval hread (by decide) hi, heq, hbyte j hj]
    · intro hspared
      rw [← show m.mem.tlbRead addr 32 = some v from hval]
      refine GuestMem.tlbRead_congr fun i hi ↦ ?_
      by_cases hout : 32 / 8 ≤ GuestMem.dist (m.cpu.regs .esp - 4) (addr + BitVec.ofNat 32 i)
      · exact GuestMem.load_tlbWrite_of_outside hg hout
      · have hat := (GuestMem.add_dist (m.cpu.regs .esp - 4) (addr + BitVec.ofNat 32 i)).symm
        have hj : GuestMem.dist (m.cpu.regs .esp - 4) (addr + BitVec.ofNat 32 i) < 4 := by omega
        rw [hspared i hi _ hj hat, ← hbyte _ hj, ← hat]

/-- The target is read after the push. -/
theorem call_iff (hoz : l.oz = 32) (hloc : loc.slot l 32 = some slot) (hv : get l loc 32 m = .ok v m)
    (hw : m.nextSlot.Writable m 32) :
    CallRight h l (.call loc) m v ↔ slot.Spared m m.cpu.eip := by
  obtain ⟨g, hg⟩ := tlbWrite_of_writable hw m.cpu.eip
  have hfits := slot_fits (.inr (.inr rfl)) hloc
  have hval := value_of_get (by decide) hloc hv
  rw [← value_pushed_iff hfits hval hg]
  have hget := get_slot hloc (by decide) (m.pushed g)
  have hcall : exec h l (.call loc) m =
      (get l loc 32 >>= fun u ↦ modifyCpu fun cpu ↦ { cpu with eip := u }) (m.pushed g) := by
    obtain ⟨oz, addr, modrm, imm⟩ := l
    obtain rfl : oz = 32 := hoz
    refine Exec.bind_eq (push_ok rfl (get_eip _ m) hg) ?_
    rw [jmp, Exec.bind_apply, Exec.bind_apply]
    cases get ⟨32, addr, modrm, imm⟩ loc 32 (m.pushed g) with
    | ok u m' =>
      refine Exec.bind_eq rfl ((fixEip_ok rfl _).trans ?_)
      rw [BitVec.setWidth_eq]
      rfl
    | _ => rfl
  constructor
  · rintro ⟨m₁, hexec, htarget, -⟩
    cases hpushed : slot.value (m.pushed g) 32 with
    | none =>
      rw [hpushed] at hget
      rw [hcall, Exec.bind_stop hget] at hexec
      cases hexec
    | some u =>
      rw [hpushed] at hget
      rw [hcall, Exec.bind_ok hget] at hexec
      cases hexec
      rw [show u = v from htarget]
  · intro hpushed
    rw [hpushed] at hget
    exact ⟨_, hcall.trans (Exec.bind_ok hget _), rfl, ret_back h hg v⟩

end

/-- The stack operations of the operand size of `cpu_step32`, where the stack can be
written. -/
theorem stack_inverse_iff (h : Host) (l : Locals) (hoz : l.oz = 32) (m : Machine)
    (hw : m.nextSlot.Writable m 32) :
    (∀ (l' : Locals) (src dst : Place) (r : Reg32) (ip : Dword), l'.oz = 32 →
      src.slot l 32 = some (.bits r 0) → dst.slot l' 32 = some (.bits r 0) →
      (PushPopRight h l l' src dst m ip ↔ r ≠ .esp)) ∧
    CallRight h l (.callRel .imm) m (m.cpu.eip + l.imm.setWidth 32) ∧
    ∀ (loc : Place) (slot : Slot) (v : Dword), loc.slot l 32 = some slot →
      get l loc 32 m = .ok v m → (CallRight h l (.call loc) m v ↔ slot.Spared m m.cpu.eip) :=
  ⟨fun _ _ _ _ _ hoz' hsrc hdst ↦ push_pop_iff hoz hoz' hsrc hdst hw, callRel_right h hoz hw,
    fun _ _ _ hloc hv ↦ call_iff hoz hloc hv hw⟩

/-- With a stack below address 0, `ebx` comes back, and a call through it does. -/
theorem stack_inverse_iff_zero :
    PushPopRight .zero .zero .zero (.reg .ebx) (.reg .ebx) .zero 5 ∧
    CallRight .zero .zero (.callRel .imm) .zero 0 ∧
    CallRight .zero .zero (.call (Place.reg .ebx)) .zero 0 := by
  obtain ⟨hpush, hrel, hcall⟩ := stack_inverse_iff .zero .zero rfl .zero fun _ _ ↦ rfl
  refine ⟨(hpush .zero _ _ .ebx 5 rfl rfl rfl).mpr (by decide), hrel, ?_⟩
  exact (hcall (.reg .ebx) (.bits .ebx 0) 0 rfl rfl).mpr (by decide : Reg32.ebx ≠ .esp)

/-- `pop esp` leaves `esp` four above where it was. -/
theorem not_push_pop_right : ¬PushPopRight .zero .zero .zero (.reg .esp) (.reg .esp) .zero 0 := by
  rintro ⟨m₁, m₂, hpush, hpop, hcpu, -⟩
  cases hpush
  cases hpop
  exact absurd (congrArg (fun cpu ↦ cpu.regs .esp) hcpu) (by decide)

end Isl.Emu
