import Isl.Emu.Alu

/-!
What an instruction that ends in one store leaves behind: the value in its place, the
flags that it has set, and everything else as it was.
-/

namespace Isl.Emu

open Isl.Lib Interp

theorem byteOf_inj {a b : Bool} : byteOf a = byteOf b ↔ a = b := by
  cases a <;> cases b <;> decide

/-- Outside of the slot, the general registers and the memory are the same. -/
structure Slot.Frame (slot : Slot) (z : ℕ) (m m' : Machine) : Prop where
  regs : ∀ r, ∀ i < 32, ¬slot.Covers z r i → (m'.cpu.regs r).getLsbD i = (m.cpu.regs r).getLsbD i
  mem : ∀ x, ¬slot.Touches z x → m'.mem.load x = m.mem.load x

section

variable {l : Locals} {m m₁ m' : Machine} {z : ℕ} {slot : Slot} {dst : Place} {r : BitVec z}
  {g : CpuState → CpuState} {o : Outcome Stop Wrong Machine Unit}

theorem memRead_stop {addr : Dword} (h : m.mem.tlbRead addr z = none) :
    memRead addr z m = .stop (.gpf addr) m := by rw [memRead, h]

theorem memRead_ok {addr : Dword} {v : BitVec z} (h : m.mem.tlbRead addr z = some v) :
    memRead addr z m = .ok v m := by rw [memRead, h]

theorem memWrite_stop {addr : Dword} {v : BitVec z} (h : m.mem.tlbWrite addr v = none) :
    memWrite addr v m = .stop (.gpf addr) m := by rw [memWrite, h]

theorem memWrite_ok {addr : Dword} {v : BitVec z} {g : GuestMem}
    (h : m.mem.tlbWrite addr v = some g) : memWrite addr v m = .ok () { m with mem := g } := by
  rw [memWrite, h]

/-- A store changes no more of the processor than its registers. -/
theorem store_cpu (h : slot.store m r = some m') :
    m'.cpu = { m.cpu with regs := m'.cpu.regs } := by
  cases slot with
  | bits r' k =>
    cases h
    rfl
  | memory addr =>
    obtain ⟨mem, -, rfl⟩ := Option.map_eq_some_iff.mp h
    rfl

theorem frame_store (h : slot.store m r = some m₁) (hg : ∀ cpu, (g cpu).regs = cpu.regs) :
    slot.Frame z m (m₁.mapCpu g) := by
  refine ⟨fun q i hi hout ↦ ?_, fun x hout ↦ Slot.load_store h hout⟩
  rw [← Slot.regs_store h hi hout]
  exact congrArg (fun regs ↦ BitVec.getLsbD (regs q) i) (hg m₁.cpu)

theorem value_of_get (hz : z ≠ 128) (hdst : dst.slot l z = some slot)
    (h : get l dst z m = .ok r m) : slot.value m z = some r := by
  rw [get_slot hdst hz] at h
  cases hv : slot.value m z with
  | none =>
    rw [hv] at h
    cases h
  | some v =>
    rw [hv] at h
    cases h
    rfl

/-- What is read does not depend on the flags. -/
theorem get_mapCpu (g : CpuState → CpuState) (hz : z ≠ 128) (hdst : dst.slot l z = some slot)
    (hg : ∀ cpu, (g cpu).regs = cpu.regs) : get l dst z (m.mapCpu g) =
    match slot.value m z with
    | some v => .ok v (m.mapCpu g)
    | none => .stop (.gpf slot.address) (m.mapCpu g) := by
  have hsame : slot.value (m.mapCpu g) z = slot.value m z := Slot.value_congr (hg _) rfl
  cases hv : slot.value m z with
  | none => rw [get_slot hdst hz, hsame, hv]
  | some v => rw [get_slot hdst hz, hsame, hv]

theorem Slot.Stores.of_eq {o' : Outcome Stop Wrong Machine Unit} (h : slot.Stores m r g o)
    (ho : o' = o) : slot.Stores m r g o' := ho ▸ h

theorem Slot.Stores.writable (h : slot.Stores m r g (.ok () m')) : slot.Writable m z := by
  rw [Slot.Stores] at h
  cases hst : slot.store m r with
  | none =>
    rw [hst] at h
    obtain ⟨_, hstop⟩ := h
    cases hstop
  | some m₁ => exact (Slot.writable_iff r).mpr ⟨m₁, hst⟩

/-- An instruction that stores its result ends, with the result in its place. -/
theorem Slot.Stores.ends (h : slot.Stores m r g o) (hz : z = 8 ∨ z = 16 ∨ z = 32)
    (hdst : dst.slot l z = some slot) (hw : slot.Writable m z)
    (hg : ∀ cpu, (g cpu).regs = cpu.regs) :
    ∃ m', o = .ok () m' ∧ get l dst z m' = .ok r m' ∧ slot.Frame z m m' ∧
      ∃ regs, m'.cpu = g { m.cpu with regs := regs } := by
  obtain ⟨m₁, hst⟩ := (Slot.writable_iff r).mp hw
  rw [Slot.Stores, hst] at h
  refine ⟨_, h, get_stored hz hdst hst hg, frame_store hst hg, m₁.cpu.regs, ?_⟩
  exact congrArg g (store_cpu hst)

/-- The end of a macro that cuts its result from `res`, and then sets more flags. -/
theorem setFromRes_cut {f : CpuState → CpuState} (hf : KeepsRegs f) (g : CpuState → CpuState)
    {raw : Dword} (hraw : (f m.cpu).res = raw) (hz : z ≤ 32) (hdst : dst.slot l z = some slot) :
    slot.Stores m (raw.setWidth z) (fun cpu ↦ g (f cpu))
      ((setFromRes l dst z >>= fun _ ↦ modifyCpu g) (m.mapCpu f)) := by
  have hres : (m.mapCpu f).cpu.res = raw := hraw
  rw [setFromRes, Exec.bind_apply, Exec.get_bind_apply, hres, set_slot hdst (by omega),
    store_mapCpu hf, Slot.Stores]
  cases slot.store m (raw.setWidth z) with
  | none => exact ⟨_, rfl⟩
  | some m' => rfl

end

end Isl.Emu
